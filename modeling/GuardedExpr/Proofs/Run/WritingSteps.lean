import GuardedExpr.Proofs.Code.AssignmentTargets
import GuardedExpr.Proofs.Code.DeedScripts
import GuardedExpr.Proofs.Run.QuietRuns

/-!
The steps that a run of a tree is made of. Besides what the host does, it writes only the members that assignments in
the tree store, and empty objects into places on the way to their targets: under a name that neither the locals nor
the scope have, or where a member is false.
-/

namespace GuardedExpr

variable {σ : Type}

namespace Event

def held (slot : Nat) : List Event → Value
  | [] => .null
  | .kept other value :: past => if other = slot then value else held slot past
  | _ :: past => held slot past

def SameSlots (past journal : List Event) : Prop :=
  ∀ slot, held slot journal = held slot past

end Event

/-- A tree that was compiled, with the heap that its literals were shown from, and a run of it: the host, the locals
and the scope. -/
structure Setting (σ : Type) where
  host : Host σ
  compiling : Heap
  root : Node
  locals : Value
  scope : Value

def Selector.denoted (journal : List Event) : Selector → Value
  | .name field => .text field
  | .slot index => Event.held index journal

/-- What code can give that is the container of a place. Arrays and objects are made anew each time. -/
def Code.Denotes (setting : Setting σ) (journal : List Event) : Code → Value → Prop
  | .locals, v => v = setting.locals
  | .scope, v => v = setting.scope
  | .slot index, v => v = Event.held index journal
  | .owner _, v => v = setting.locals ∨ v = setting.scope
  | .literal value _, v => v = value
  | .array _, v | .object _ _, v => ∃ r, v = .ref r
  | _, _ => False

namespace Machine

def wrote (m : Machine σ) (event : Event) (container key value : Value) : Machine σ :=
  match m.heap.setMember container key value with
  | .ok heap => { m.note event with heap }
  | .error _ => m.note event

def made (m : Machine σ) (container : Value) (selector : Selector) (key : Value) : Machine σ :=
  wrote { m with heap := (m.heap.alloc (.mapping .plain [])).2 } (.created container selector key (.ref m.heap.size))
    container key (.ref m.heap.size)

/-- A step of a run: an event that is no deed, a new array or object, a call of the host, the store of an assignment
of the tree, or the creation of a member on the way to the target of one, where the member is missing. -/
inductive Acts (setting : Setting σ) : Machine σ → Machine σ → Prop where
  | note {m : Machine σ} {event : Event} (other : event.deed? = none) : Acts setting m (m.note event)
  | alloc {m : Machine σ} {cell : Cell} (built : cell.isBuilt) :
      Acts setting m { m with heap := (m.heap.alloc cell).2 }
  | call {m : Machine σ} (slot : Nat) {callee : Value} {arguments : List Value} {outcome : Except Error Value}
      {heap : Heap} {world : σ} (called : setting.host.call callee arguments m.heap m.world = (outcome, heap, world)) :
      Acts setting m ⟨heap, world, .invoked slot callee arguments :: m.journal⟩
  | store {m : Machine σ} {site : Nat} {place : Place} {container value : Value}
      (stores : setting.root.Stores setting.compiling site place)
      (denotes : place.container.Denotes setting m.journal container) :
      Acts setting m (m.wrote (.stored site container place.selector (place.selector.denoted m.journal) value)
        container (place.selector.denoted m.journal) value)
  | name {m : Machine σ} {name : Text} {free : Nat}
      (on : setting.root.OnTarget setting.compiling (.identifier name) free)
      (foreign : m.heap.hasMember setting.locals name = .ok false)
      (absent : m.heap.hasMember setting.scope name = .ok false) :
      Acts setting m (m.made setting.scope (.name name) (.text name))
  | member {m : Machine σ} {place : Place} {container member : Value}
      (fills : setting.root.Fills setting.compiling place)
      (denotes : place.container.Denotes setting m.journal container)
      (present : m.heap.getMember container (place.selector.denoted m.journal) = .ok member)
      (falsy : m.heap.isTruthy member = .ok false) :
      Acts setting m (m.made container place.selector (place.selector.denoted m.journal))

structure Goes (setting : Setting σ) (m last : Machine σ) : Prop where
  steps : Relation.ReflTransGen (Acts setting) m last
  slots : Event.SameSlots m.journal last.journal

variable {setting : Setting σ} {m middle last : Machine σ}

theorem goes_refl (setting : Setting σ) (m : Machine σ) : m.Goes setting m :=
  ⟨.refl, fun _ => rfl⟩

theorem Goes.trans (first : m.Goes setting middle) (second : middle.Goes setting last) : m.Goes setting last :=
  ⟨first.steps.trans second.steps, fun slot => (second.slots slot).trans (first.slots slot)⟩

theorem goes_note {event : Event} (other : event.deed? = none) (slots : Event.SameSlots m.journal (event :: m.journal)) :
    m.Goes setting (m.note event) :=
  ⟨.single (.note other), slots⟩

private theorem wrote_of_ok {event : Event} {container key value : Value} {heap : Heap}
    (written : m.heap.setMember container key value = .ok heap) :
    m.wrote event container key value = { m.note event with heap } := by
  rw [wrote, written]

private theorem wrote_of_error {event : Event} {container key value : Value} {failure : Error}
    (refused : m.heap.setMember container key value = .error failure) :
    m.wrote event container key value = m.note event := by
  rw [wrote, refused]

theorem journal_wrote (m : Machine σ) (event : Event) (container key value : Value) :
    (m.wrote event container key value).journal = event :: m.journal := by
  unfold wrote
  split <;> rfl

end Machine

def Run.Goes {α : Type} (setting : Setting σ) (part : Run σ α) (m : Machine σ) : Prop :=
  part.Leads m (fun _ last => m.Goes setting last) fun _ last => m.Goes setting last

namespace Run

variable {α β : Type} {setting : Setting σ} {m : Machine σ} {part : Run σ β} {next : β → Run σ α}

theorem Goes.bind (first : part.Goes setting m)
    (later : ∀ value middle, m.Goes setting middle → (next value).Goes setting middle) :
    (part >>= next).Goes setting m := by
  refine (leads_bind _ _).mpr (Leads.mono first (fun value middle step => ?_) fun _ _ step => step)
  exact Leads.mono (later value middle step) (fun _ _ further => step.trans further) fun _ _ further => step.trans further

theorem Goes.after {middle : Machine σ} (first : m.Goes setting middle) (rest : part.Goes setting middle) :
    part.Leads middle (fun _ last => m.Goes setting last) fun _ last => m.Goes setting last :=
  Leads.mono rest (fun _ _ further => first.trans further) fun _ _ further => first.trans further

theorem leads_bind_goes {known : β → Machine σ → Prop} {good : α → Machine σ → Prop}
    (first : part.Leads m (fun value middle => m.Goes setting middle ∧ known value middle)
      fun _ last => m.Goes setting last)
    (later : ∀ value middle, m.Goes setting middle → known value middle →
      (next value).Leads middle (fun found last => middle.Goes setting last ∧ good found last)
        fun _ last => middle.Goes setting last) :
    (part >>= next).Leads m (fun found last => m.Goes setting last ∧ good found last)
      fun _ last => m.Goes setting last := by
  refine (leads_bind _ _).mpr (first.imp fun value middle reached => ?_)
  exact (later value middle reached.1 reached.2).mono (fun _ _ further => ⟨reached.1.trans further.1, further.2⟩)
    fun _ _ further => reached.1.trans further

theorem goes_pure (value : α) : (pure value : Run σ α).Goes setting m :=
  Machine.goes_refl setting m

theorem goes_throw (failure : Error) : (throw failure : Run σ α).Goes setting m :=
  Machine.goes_refl setting m

theorem goes_ask (question : Heap → Except Error α) : (ask question : Run σ α).Goes setting m :=
  (leads_ask question).mpr ⟨fun _ _ => Machine.goes_refl setting m, fun _ _ => Machine.goes_refl setting m⟩

theorem goes_answer (outcome : Except Error α) : (answer outcome : Run σ α).Goes setting m :=
  (leads_answer outcome).mpr ⟨fun _ _ => Machine.goes_refl setting m, fun _ _ => Machine.goes_refl setting m⟩

theorem goes_record {event : Event} (other : event.deed? = none)
    (slots : Event.SameSlots m.journal (event :: m.journal)) : (record event : Run σ Unit).Goes setting m :=
  (leads_record event).mpr (Machine.goes_note other slots)

theorem goes_alloc {cell : Cell} (built : cell.isBuilt) : (alloc cell : Run σ Value).Goes setting m :=
  (leads_alloc cell).mpr ⟨.single (.alloc built), fun _ => rfl⟩

theorem goes_has (container : Value) (name : Text) : (has container name : Run σ Bool).Goes setting m :=
  (leads_has container name).mpr
    ⟨fun _ _ => Machine.goes_note rfl fun _ => rfl, fun _ _ => Machine.goes_note rfl fun _ => rfl⟩

theorem goes_read (container : Value) (selector : Selector) (key : Value) :
    (read container selector key : Run σ Value).Goes setting m :=
  (leads_read container selector key).mpr
    ⟨fun _ _ => Machine.goes_note rfl fun _ => rfl, fun _ _ => Machine.goes_note rfl fun _ => rfl⟩

theorem goes_guarded (value : Value) : (guarded value : Run σ Value).Goes setting m :=
  (leads_guarded value).mpr ⟨fun _ => Machine.goes_refl setting m, fun _ _ => Machine.goes_refl setting m⟩

theorem goes_invoke (slot : Nat) (callee : Value) (arguments : List Value) :
    (invoke setting.host slot callee arguments).Goes setting m :=
  (leads_invoke setting.host slot callee arguments).mpr
    ⟨fun _ _ => ⟨.single (.call slot rfl), fun _ => rfl⟩, fun _ _ => ⟨.single (.call slot rfl), fun _ => rfl⟩⟩

theorem leads_write_wrote (event : Event) (container key value : Value) :
    (write event container key value : Run σ Unit).Leads m
      (fun _ last => last = m.wrote event container key value)
      fun _ last => last = m.wrote event container key value :=
  (leads_write event container key value).mpr
    ⟨fun _ written => (Machine.wrote_of_ok written).symm, fun _ refused => (Machine.wrote_of_error refused).symm⟩

theorem leads_create_made (container : Value) (selector : Selector) (key : Value) :
    (create container selector key : Run σ Unit).Leads m (fun _ last => last = m.made container selector key)
      fun _ last => last = m.made container selector key :=
  (leads_bind _ _).mpr ((leads_alloc _).mpr (leads_write_wrote _ container key _))

end Run

structure Frame.Matches (setting : Setting σ) (frame : Frame) (journal : List Event) : Prop where
  locals : frame.locals = setting.locals
  scope : frame.scope = setting.scope
  slots : ∀ index value, frame.slots[index]? = some value → value = Event.held index journal

theorem Frame.Matches.later {setting : Setting σ} {frame : Frame} {past journal : List Event}
    (matching : frame.Matches setting past) (same : Event.SameSlots past journal) : frame.Matches setting journal where
  locals := matching.locals
  scope := matching.scope
  slots := fun index value present => (matching.slots index value present).trans (same index).symm

theorem Frame.Matches.goes {setting : Setting σ} {frame : Frame} {m last : Machine σ}
    (matching : frame.Matches setting m.journal) (goes : m.Goes setting last) : frame.Matches setting last.journal :=
  matching.later goes.slots

theorem Code.Denotes.later {setting : Setting σ} {past journal : List Event} {code : Code} {v : Value}
    (denotes : code.Denotes setting past v) (same : Event.SameSlots past journal) : code.Denotes setting journal v := by
  cases code with
  | slot index => exact Eq.trans denotes (same index).symm
  | _ => exact denotes

theorem Selector.denoted_later {past journal : List Event} (same : Event.SameSlots past journal)
    (selector : Selector) : selector.denoted journal = selector.denoted past := by
  cases selector with
  | name field => rfl
  | slot index => exact same index

section Inline

open Run

variable {setting : Setting σ} {frame : Frame} {m : Machine σ}

theorem Frame.leads_slot_held (matching : frame.Matches setting m.journal) (index : Nat) :
    (frame.slot index : Run σ Value).Leads m (fun v last => last = m ∧ v = Event.held index m.journal)
      fun _ last => last = m :=
  Frame.leads_slot.mpr ⟨fun value present => ⟨rfl, matching.slots index value present⟩, fun _ => rfl⟩

theorem Selector.leads_denoted (matching : frame.Matches setting m.journal) (selector : Selector) :
    (selector.key frame : Run σ Value).Leads m (fun key last => last = m ∧ key = selector.denoted m.journal)
      fun _ last => last = m := by
  cases selector with
  | name field => exact ⟨rfl, rfl⟩
  | slot index => exact Frame.leads_slot_held matching index

theorem Frame.goes_slot (frame : Frame) (index : Nat) : (frame.slot index : Run σ Value).Goes setting m :=
  Frame.leads_slot.mpr ⟨fun _ _ => Machine.goes_refl setting m, fun _ => Machine.goes_refl setting m⟩

theorem Selector.goes_key (selector : Selector) : (selector.key frame : Run σ Value).Goes setting m := by
  cases selector with
  | name field => exact goes_pure _
  | slot index => exact frame.goes_slot index

end Inline

end GuardedExpr

import GuardedExpr.Proofs.Heap.AlikeAnswers
import GuardedExpr.Proofs.Node.TreeReading
import GuardedExpr.Proofs.Run.RunPostconditions

/-!
What inline code yields. Between the statements that prepare a piece of code and its use, other slots are
filled and containers are made, but neither the slots of the code nor what they refer to change. So the code
yields, at each of its uses, a value alike to the one that the reading found.
-/

namespace GuardedExpr

variable {σ : Type} {host : Host σ} {base a b later further : Heap} {frame after last : Frame}
  {m : Machine σ}

namespace Frame

structure Agrees (bound : Nat) (frame after : Frame) : Prop where
  locals : after.locals = frame.locals
  scope : after.scope = frame.scope
  room : after.slots.length = frame.slots.length
  slots : ∀ slot, slot < bound → after.slots[slot]? = frame.slots[slot]?

theorem Agrees.refl (bound : Nat) (frame : Frame) : frame.Agrees bound frame :=
  ⟨rfl, rfl, rfl, fun _ _ => rfl⟩

theorem Agrees.mono {bound higher : Nat} (agrees : Agrees higher frame after) (upward : bound ≤ higher) :
    Agrees bound frame after :=
  ⟨agrees.locals, agrees.scope, agrees.room, fun slot below => agrees.slots slot (by omega)⟩

theorem Agrees.trans {bound : Nat} (first : Agrees bound frame after) (second : Agrees bound after last) :
    Agrees bound frame last where
  locals := second.locals.trans first.locals
  scope := second.scope.trans first.scope
  room := second.room.trans first.room
  slots := fun slot below => (second.slots slot below).trans (first.slots slot below)

def fill (frame : Frame) (slot : Nat) (value : Value) : Frame :=
  { frame with slots := frame.slots.set slot value }

theorem agrees_fill (frame : Frame) (slot : Nat) (value : Value) : Agrees slot frame (frame.fill slot value) :=
  ⟨rfl, rfl, List.length_set, fun _ below => List.getElem?_set_ne (by omega)⟩

def IsFree (frame : Frame) (free : Nat) : Prop :=
  ∀ slot, free ≤ slot → slot < frame.slots.length → frame.slots[slot]? = some .null

theorem leads_setSlot {slot : Nat} {value : Value} {good : Frame → Machine σ → Prop}
    {bad : Error → Machine σ → Prop} (room : slot < frame.slots.length) :
    (frame.setSlot slot value : Run σ Frame).Leads m good bad ↔
      good (frame.fill slot value) (m.note (.kept slot value)) := by
  unfold setSlot
  rw [Run.leads_ite, if_pos room]
  rfl

end Frame

/-- In all later frames and heaps the code has a value, which is alike to the given one. -/
def Code.Yields (host : Host σ) (old bound : Nat) (frame : Frame) (a b : Heap) (code : Code)
    (value : Value) : Prop :=
  ∀ (after : Frame) (m : Machine σ), frame.Agrees bound after → a.Grows m.heap →
    (code.run host after).Leads m
      (fun found last => m.heap.Grows last.heap ∧ Heap.Alike old last.heap b found value) fun _ _ => False

section Yielding

variable {old bound : Nat} {code : Code} {value : Value}

theorem Code.Yields.mono (yields : code.Yields host old bound frame a b value) {higher : Nat}
    (upward : bound ≤ higher) (agrees : frame.Agrees bound after) (left : a.Grows later)
    (right : b.Grows further) : code.Yields host old higher after later further value := by
  intro next m same grows
  apply (yields next m (agrees.trans (same.mono upward)) (left.trans grows)).imp
  exact fun found last reached => ⟨reached.1, reached.2.grow (.refl _) right⟩

theorem Code.Yields.leads (yields : code.Yields host old bound frame a b value) {middle : Machine σ}
    (grows : a.Grows middle.heap) {bad : Error → Machine σ → Prop} :
    (code.run host frame).Leads middle
      (fun found last => middle.heap.Grows last.heap ∧ Heap.Alike old last.heap b found value) bad :=
  (yields frame middle (.refl _ _) grows).mono (fun _ _ reached => reached) fun _ _ never => never.elim

theorem Code.yields_pure (read : ∀ (after : Frame), frame.Agrees bound after →
      (code.run host after : Run σ Value) = pure value)
    (below : value.isBelow old) : code.Yields host old bound frame a b value := by
  intro after m agrees _
  rw [read after agrees]
  exact ⟨.refl _, .same below⟩

theorem Code.yields_slot {slot : Nat} {found : Value} (held : frame.slots[slot]? = some found)
    (inside : slot < bound) (alike : Heap.Alike old a b found value) :
    (Code.slot slot).Yields host old bound frame a b value := by
  intro after m agrees grows
  refine Frame.leads_slot.mpr ⟨?_, ?_⟩
  · intro other present
    rw [agrees.slots slot inside, held] at present
    cases present
    exact ⟨.refl _, alike.grow grows (.refl _)⟩
  · intro absent
    rw [agrees.slots slot inside, held] at absent
    cases absent

abbrev Code.YieldAll (host : Host σ) (old bound : Nat) (frame : Frame) (a b : Heap) :
    List Code → List Value → Prop :=
  List.Forall₂ (Code.Yields host old bound frame a b)

variable {codes : List Code} {values : List Value}

theorem Code.YieldAll.mono (yield : YieldAll host old bound frame a b codes values) {higher : Nat}
    (upward : bound ≤ higher) (agrees : frame.Agrees bound after) (left : a.Grows later)
    (right : b.Grows further) : YieldAll host old higher after later further codes values :=
  yield.imp fun _ _ yields => yields.mono upward agrees left right

private theorem Code.leads_runAll_yield (yield : YieldAll host old bound frame a b codes values)
    (agrees : frame.Agrees bound after) (grows : a.Grows m.heap) :
    (runAll host after codes).Leads m
      (fun found last => m.heap.Grows last.heap ∧ List.Forall₂ (Heap.Alike old last.heap b) found values)
      fun _ _ => False := by
  induction yield generalizing m with
  | nil => exact ⟨.refl _, .nil⟩
  | cons yields _ hypothesis =>
    apply (yields after m agrees grows).bind
    rintro value middle ⟨first, alike⟩
    apply (hypothesis (grows.trans first)).bind
    rintro found last ⟨second, each⟩
    exact ⟨first.trans second, .cons (alike.grow second (.refl _)) each⟩

/-- An array of what codes yield, on a heap that the reading has put such an array on. -/
theorem Code.yields_array (branches : base.Branches a b)
    (yield : YieldAll host base.size bound frame a b codes values) :
    (Code.array codes).Yields host base.size bound frame a (b.alloc (.list values)).2 (.ref b.size) := by
  intro after m agrees grows
  apply (Code.leads_runAll_yield yield agrees grows).bind
  rintro found middle ⟨first, each⟩
  have left := middle.heap.grows_alloc (.list found)
  have right := b.grows_alloc (.list values)
  have new : base.size ≤ middle.heap.size ∧ base.size ≤ b.size :=
    ⟨(branches.left.trans (grows.trans first)).grown, branches.right.grown⟩
  refine ⟨first.trans left, .of_items new (Heap.cell_alloc_new _ _) (Heap.cell_alloc_new _ _) ?_⟩
  exact each.imp fun _ _ alike => alike.grow left right

inductive Code.YieldMembers (host : Host σ) (old bound : Nat) (frame : Frame) (a b : Heap) :
    List (Value × Text) → List Code → Entries → Prop where
  | nil : YieldMembers host old bound frame a b [] [] []
  | cons {key : Value × Text} {keys : List (Value × Text)} {code : Code} {codes : List Code} {hashed : Key}
      {value : Value} {members : Entries} (hashes : ∀ h : Heap, h.key? key.1 = some hashed)
      (plain : hashed.all (·.isBelow old)) (yields : code.Yields host old bound frame a b value)
      (rest : YieldMembers host old bound frame a b keys codes members) :
      YieldMembers host old bound frame a b (key :: keys) (code :: codes)
        ((hashed, key.1, value) :: members)

def Entries.setAll (members entries : Entries) : Entries :=
  members.foldl (fun made member => made.set member.1 member.2.1 member.2.2) entries

variable {keys : List (Value × Text)} {members entries : Entries}

theorem Code.YieldMembers.mono (yield : YieldMembers host old bound frame a b keys codes members)
    {higher : Nat} (upward : bound ≤ higher) (agrees : frame.Agrees bound after) (left : a.Grows later)
    (right : b.Grows further) : YieldMembers host old higher after later further keys codes members := by
  induction yield with
  | nil => exact .nil
  | cons hashes plain yields _ hypothesis =>
    exact .cons hashes plain (yields.mono upward agrees left right) hypothesis

theorem Code.YieldMembers.plain (yield : YieldMembers host old bound frame a b keys codes members) :
    members.KeysBelow old := by
  induction yield with
  | nil => exact fun _ member => nomatch member
  | cons _ plain _ _ hypothesis => exact List.forall_mem_cons.mpr ⟨plain, hypothesis⟩

private theorem Code.leads_runEntries_yield
    (yield : YieldMembers host old bound frame a b keys codes members)
    (agrees : frame.Agrees bound after) (grows : a.Grows m.heap) :
    (runEntries host after keys codes entries).Leads m
      (fun made last => m.heap.Grows last.heap ∧ ∃ found : Entries,
        Heap.PairedEntries (Heap.Alike old last.heap b) found members ∧ made = found.setAll entries)
      fun _ _ => False := by
  induction yield generalizing m entries with
  | nil => exact ⟨.refl _, [], .nil, rfl⟩
  | @cons key keys code codes hashed value members hashes _ yields _ hypothesis =>
    apply (yields after m agrees grows).bind
    rintro value middle ⟨first, alike⟩
    rw [Run.leads_bind, Run.leads_record, Run.leads_bind, Run.leads_get]
    simp only [hashes]
    refine (hypothesis (m := middle.note (.built [value])) (grows.trans first)).imp ?_
    rintro made last ⟨second, found, paired, rfl⟩
    exact ⟨first.trans second, (hashed, key.1, value) :: found,
      .cons ⟨⟨rfl, rfl⟩, alike.grow second (.refl _)⟩ paired, rfl⟩

theorem Heap.paired_set {related : Value → Value → Prop} {others : Entries} {key : Key} {shown v w : Value}
    (paired : PairedEntries related entries others) (values : related v w) :
    PairedEntries related (entries.set key shown v) (others.set key shown w) := by
  induction paired with
  | nil => exact .cons ⟨⟨rfl, rfl⟩, values⟩ .nil
  | @cons entry other _ _ head tail hypothesis =>
    simp only [Entries.set, Table.alter, head.1.1] at hypothesis ⊢
    split
    · exact .cons ⟨⟨rfl, head.1.2⟩, values⟩ tail
    · exact .cons ⟨⟨rfl, head.1.2⟩, head.2⟩ hypothesis

theorem Heap.paired_setAll {related : Value → Value → Prop} {found others : Entries}
    (each : PairedEntries related found members) (paired : PairedEntries related entries others) :
    PairedEntries related (found.setAll entries) (members.setAll others) := by
  induction each generalizing entries others with
  | nil => exact paired
  | @cons member other _ _ head _ hypothesis =>
    simp only [Entries.setAll, List.foldl_cons, head.1.1, head.1.2] at hypothesis ⊢
    exact hypothesis (paired_set paired head.2)

theorem Entries.keys_set {P : Key → Prop} {key : Key} (all : ∀ entry ∈ entries, P entry.1) (own : P key)
    (shown value : Value) : ∀ entry ∈ entries.set key shown value, P entry.1 := by
  intro entry inside
  have present := List.mem_map_of_mem (f := Prod.fst) inside
  unfold Entries.set at present
  rw [Table.keys_alter] at present
  split at present
  · obtain ⟨other, member, same⟩ := List.mem_map.mp present
    exact same ▸ all other member
  · rcases List.mem_append.mp present with old | new
    · obtain ⟨other, member, same⟩ := List.mem_map.mp old
      exact same ▸ all other member
    · exact List.mem_singleton.mp new ▸ own

theorem Entries.keys_setAll {P : Key → Prop} (all : ∀ entry ∈ entries, P entry.1)
    (each : ∀ member ∈ members, P member.1) : ∀ entry ∈ members.setAll entries, P entry.1 := by
  induction members generalizing entries with
  | nil => exact all
  | cons member members hypothesis =>
    obtain ⟨head, rest⟩ := List.forall_mem_cons.mp each
    exact hypothesis (keys_set all head _ _) rest

theorem Entries.KeysBelow.setAll {bound : Nat} (all : entries.KeysBelow bound)
    (each : members.KeysBelow bound) : (members.setAll entries).KeysBelow bound :=
  keys_setAll (P := fun key => key.all (·.isBelow bound)) all each

/-- An object of what codes yield, on a heap that the reading has put such an object on. -/
theorem Code.yields_object (branches : base.Branches a b)
    (yield : YieldMembers host base.size bound frame a b keys codes members) :
    (Code.object keys codes).Yields host base.size bound frame a
      (b.alloc (.mapping .plain (members.setAll []))).2 (.ref b.size) := by
  intro after m agrees grows
  apply (Code.leads_runEntries_yield yield agrees grows).bind
  rintro made middle ⟨first, found, paired, rfl⟩
  have left := middle.heap.grows_alloc (.mapping .plain (found.setAll []))
  have right := b.grows_alloc (.mapping .plain (members.setAll []))
  have new : base.size ≤ middle.heap.size ∧ base.size ≤ b.size :=
    ⟨(branches.left.trans (grows.trans first)).grown, branches.right.grown⟩
  have each := Heap.paired_setAll paired .nil
  have none : Entries.KeysBelow base.size [] := fun _ member => nomatch member
  have plain := (Heap.keysBelow_of_paired each).mpr (none.setAll yield.plain)
  refine ⟨first.trans left, .of_entries new (Heap.cell_alloc_new _ _) (Heap.cell_alloc_new _ _) plain ?_⟩
  exact each.imp fun _ _ paired => ⟨paired.1, paired.2.grow left right⟩

end Yielding

end GuardedExpr

import GuardedExpr.Proofs.Code.QuietCode
import GuardedExpr.Proofs.Run.CodeYields

/-!
Places that are missing. The left side of an assignment asks whether a member is there, and whether it is true,
before it puts an empty object there. For that the code of the container is run twice; it is plain, so both runs
give the same container, or two that were built alike.
-/

namespace GuardedExpr

variable {σ : Type} {host : Host σ} {base b h after : Heap} {frame : Frame} {m : Machine σ}

abbrev Creation := Value × Value × Value

namespace Event

def creation? : Event → Option Creation
  | .created container _ key made => some (container, key, made)
  | _ => none

def creations (journal : List Event) : List Creation :=
  journal.filterMap creation?

theorem creations_cons {event : Event} (other : event.creation? = none) (journal : List Event) :
    creations (event :: journal) = creations journal :=
  List.filterMap_cons_none other

end Event

inductive Heap.Lacks (h : Heap) (container key : Value) : Prop where
  | absent {name : Text} (named : key = .text name) (missing : h.hasMember container name = .ok false)
  | falsy {member : Value} (present : h.getMember container key = .ok member)
      (empty : h.isTruthy member = .ok false)

/-- The other heap is the one after the given empty objects have been put where members were missing or false,
newest first, and other containers have been made. -/
inductive Heap.Filled (h : Heap) : List Creation → Heap → Prop where
  | start : Filled h [] h
  | grow {made : List Creation} {middle after : Heap} (earlier : Filled h made middle)
      (grows : middle.Grows after) : Filled h made after
  | create {made : List Creation} {middle after : Heap} {container key : Value} (earlier : Filled h made middle)
      (lacks : middle.Lacks container key)
      (written : (middle.alloc (.mapping .plain [])).2.setMember container key (.ref middle.size) = .ok after) :
      Filled h ((container, key, .ref middle.size) :: made) after

/-- Where no empty object was put, the heap has only grown. -/
theorem Heap.Filled.grows (filled : h.Filled [] after) : h.Grows after := by
  generalize none : ([] : List Creation) = made at filled
  induction filled with
  | start => exact .refl _
  | grow _ grows hypothesis => exact (hypothesis none).trans grows
  | create => cases none

structure Frame.Inside (bound : Nat) (frame : Frame) : Prop where
  locals : frame.locals.isBelow bound
  scope : frame.scope.isBelow bound
  parameter : frame.parameter.isBelow bound
  slots : ∀ value ∈ frame.slots, value.isBelow bound

theorem Frame.Inside.mono {bound higher : Nat} (inside : frame.Inside bound) (upward : bound ≤ higher) :
    frame.Inside higher :=
  ⟨Value.isBelow_mono upward inside.locals, Value.isBelow_mono upward inside.scope,
    Value.isBelow_mono upward inside.parameter,
    fun value member => Value.isBelow_mono upward (inside.slots value member)⟩

/-! Plain code may be run again. -/

namespace Code

mutual

theorem leads_yields (closed : base.IsClosed) (inside : frame.Inside base.size) : (code : Code) →
    code.isPlain → ∀ m : Machine σ, (code.run host frame).Leads m
      (fun _ _ => ∀ b, base.Grows b → ∃ value further, b.Grows further ∧
        code.Yields host base.size frame.slots.length frame base further value)
      fun _ _ => True
  | .locals, _, _ => fun b _ =>
    ⟨frame.locals, b, .refl b, yields_pure (fun after agrees => by rw [run, agrees.locals]) inside.locals⟩
  | .scope, _, _ => fun b _ =>
    ⟨frame.scope, b, .refl b, yields_pure (fun after agrees => by rw [run, agrees.scope]) inside.scope⟩
  | .slot index, _, _ => by
    refine Frame.leads_slot.mpr ⟨fun value held b _ => ?_, fun _ => trivial⟩
    have below := inside.slots value (List.mem_of_getElem? held)
    exact ⟨value, b, .refl b, yields_slot held (List.getElem?_eq_some_iff.mp held).1 (.same below)⟩
  | .literal value _, scalar, _ => fun b _ =>
    ⟨value, b, .refl b, yields_pure (fun _ _ => rfl) (Value.isBelow_of_isScalar scalar _)⟩
  | .array items, plain, m => by
    apply Run.Leads.bind (leads_yieldAll closed inside items plain m)
    intro _ _ each b grows
    obtain ⟨values, further, grown, yield⟩ := each b grows
    exact ⟨.ref further.size, (further.alloc (.list values)).2, grown.trans (further.grows_alloc _),
      yields_array ⟨closed, .refl base, grows.trans grown⟩ yield⟩
  | .object keys values, plain, m => by
    obtain ⟨front, each⟩ := Bool.and_eq_true_iff.mp plain
    obtain ⟨scalars, length⟩ := Bool.and_eq_true_iff.mp front
    apply Run.Leads.bind (leads_yieldMembers closed inside keys values [] scalars (beq_iff_eq.mp length) each m)
    intro _ _ all b grows
    obtain ⟨members, further, grown, yield⟩ := all b grows
    exact ⟨.ref further.size, (further.alloc (.mapping .plain (members.setAll []))).2,
      grown.trans (further.grows_alloc _), yields_object ⟨closed, .refl base, grows.trans grown⟩ yield⟩

theorem leads_yieldAll (closed : base.IsClosed) (inside : frame.Inside base.size) : (codes : List Code) →
    arePlain codes → ∀ m : Machine σ, (runAll host frame codes).Leads m
      (fun _ _ => ∀ b, base.Grows b → ∃ values further, b.Grows further ∧
        YieldAll host base.size frame.slots.length frame base further codes values)
      fun _ _ => True
  | [], _, _ => fun b _ => ⟨[], b, .refl b, .nil⟩
  | code :: codes, plain, m => by
    obtain ⟨head, tail⟩ := Bool.and_eq_true_iff.mp plain
    apply Run.Leads.bind (leads_yields closed inside code head m)
    intro _ middle first
    apply Run.Leads.bind (leads_yieldAll closed inside codes tail middle)
    intro _ _ others b grows
    -- The item is built on the given heap too, and the others on what that has grown to.
    obtain ⟨value, further, grown, yields⟩ := first b grows
    obtain ⟨values, furthest, rest, yield⟩ := others further (grows.trans grown)
    exact ⟨value :: values, furthest, grown.trans rest,
      .cons (yields.mono (Nat.le_refl _) (.refl _ _) (.refl _) rest) yield⟩

theorem leads_yieldMembers (closed : base.IsClosed) (inside : frame.Inside base.size) :
    (keys : List (Value × Text)) → (codes : List Code) → (entries : Entries) → keys.all (·.1.isScalar) →
    keys.length = codes.length → arePlain codes → ∀ m : Machine σ,
    (runEntries host frame keys codes entries).Leads m
      (fun _ _ => ∀ b, base.Grows b → ∃ members further, b.Grows further ∧
        YieldMembers host base.size frame.slots.length frame base further keys codes members)
      fun _ _ => True
  | [], [], _, _, _, _, _ => fun b _ => ⟨[], b, .refl b, .nil⟩
  | key :: keys, code :: codes, entries, scalars, length, plain, m => by
    obtain ⟨scalar, others⟩ := Bool.and_eq_true_iff.mp scalars
    obtain ⟨head, tail⟩ := Bool.and_eq_true_iff.mp plain
    obtain ⟨hashed, hashes, below⟩ := Heap.key?_of_isScalar scalar
    apply Run.Leads.bind (leads_yields closed inside code head m)
    intro value middle first
    rw [Run.leads_bind, Run.leads_record, Run.leads_bind, Run.leads_get]
    simp only [hashes]
    apply (leads_yieldMembers closed inside keys codes (entries.set hashed key.1 value) others
      (Nat.succ.inj length) tail _).imp
    intro _ _ rest b grows
    obtain ⟨found, further, grown, yields⟩ := first b grows
    obtain ⟨members, furthest, later, yield⟩ := rest further (grows.trans grown)
    exact ⟨(hashed, key.1, found) :: members, furthest, grown.trans later,
      .cons hashes (below base.size) (yields.mono (Nat.le_refl _) (.refl _ _) (.refl _) later) yield⟩

end

private theorem leads_repeats (closed : m.heap.IsClosed) (inside : frame.Inside m.heap.size)
    {code : Code}
    (plain : code.isPlain) :
    (code.run host frame).Leads m
      (fun found last => m.heap.Grows last.heap ∧ ∃ value further, m.heap.Grows further ∧
        code.Yields host m.heap.size frame.slots.length frame m.heap further value ∧
          Heap.Alike m.heap.size last.heap further found value)
      fun _ _ => True := by
  refine Run.leads_iff.mpr ⟨fun found done => ?_, fun _ _ => trivial⟩
  obtain ⟨value, further, grows, yields⟩ :=
    (Run.leads_iff.mp (leads_yields closed inside code plain m)).1 found done _ (.refl _)
  obtain ⟨grown, alike⟩ := (Run.leads_iff.mp (yields frame m (.refl _ _) (.refl _))).1 found done
  exact ⟨grown, value, further, grows, yields, alike⟩

end Code

/-- The key of a selector is the same whenever it is asked for in one frame. -/
theorem Selector.leads_key (inside : frame.Inside base.size) (selector : Selector) :
    (selector.key frame : Run σ Value).Leads m
      (fun key last => last = m ∧ key.isBelow base.size ∧ ∀ later : Machine σ,
        (selector.key frame).Leads later (fun found after => after = later ∧ found = key) fun _ _ => True)
      fun _ _ => True := by
  cases selector with
  | name field => exact ⟨rfl, rfl, fun _ => ⟨rfl, rfl⟩⟩
  | slot index =>
    refine Frame.leads_slot.mpr ⟨fun key held => ⟨rfl, ?_, fun later => ?_⟩, fun _ => trivial⟩
    · exact inside.slots key (List.mem_of_getElem? held)
    · refine Frame.leads_slot.mpr ⟨fun found again => ⟨rfl, ?_⟩, fun _ => trivial⟩
      exact Option.some.inj (again.symm.trans held)

/-- A member that is false of one container is false of all that are alike to it. -/
theorem Heap.Branches.lacks {a other : Heap} {container like key member : Value}
    (left : base.Branches a b) (right : base.Branches other b) {built : Value}
    (alike : Heap.Alike base.size a b container built) (again : Heap.Alike base.size other b like built)
    (below : key.isBelow base.size) (present : a.getMember container key = .ok member)
    (empty : a.isTruthy member = .ok false) : other.Lacks like key := by
  have first := left.getMember_of_below alike below
  have second := right.getMember_of_below again below
  rw [present] at first
  generalize b.getMember built key = read at first second
  cases first with
  | @ok _ shown same =>
    generalize found : other.getMember like key = outcome at second
    cases second with
    | @ok v _ here =>
      refine .falsy found ?_
      rw [right.isTruthy here, ← left.isTruthy same]
      exact empty

/-- Where a member is found to be false, the container lacks it when its code is run the next time. -/
theorem Question.leads_lacks (closed : m.heap.IsClosed) (inside : frame.Inside m.heap.size) {container : Code}
    (plain : container.isPlain) (selector : Selector) :
    ((Question.holds (.member container selector)).run host frame).Leads m
      (fun holds _ => holds = false → ∃ key, key.isBelow m.heap.size ∧
        (∀ later : Machine σ, (selector.key frame).Leads later
          (fun found after => after = later ∧ found = key) fun _ _ => True) ∧
        ∀ later : Machine σ, m.heap.Grows later.heap →
          (container.run host frame).Leads later (fun subject last => last.heap.Lacks subject key)
            fun _ _ => True)
      fun _ _ => True := by
  unfold Question.run
  simp only [Code.run, bind_assoc]
  apply Run.Leads.bind (Code.leads_repeats closed inside plain)
  rintro subject middle ⟨grown, value, further, grows, yields, alike⟩
  apply Run.Leads.bind (selector.leads_key inside)
  rintro key _ ⟨rfl, below, keyed⟩
  refine (Run.leads_bind _ _).mpr ((Run.leads_read _ _ _).mpr ⟨fun member present => ?_, fun _ _ => trivial⟩)
  refine (Run.leads_ask _).mpr ⟨fun holds answered denied => ?_, fun _ _ => trivial⟩
  -- The two containers need not be one: each is alike to what the code gives on a third heap.
  refine ⟨key, below, keyed, fun later reached => (yields.leads reached).imp ?_⟩
  rintro again last ⟨moved, likewise⟩
  exact Heap.Branches.lacks ⟨closed, grown, grows⟩ ⟨closed, reached.trans moved, grows⟩ alike likewise below
    present (denied ▸ answered)

theorem Condition.leads_denied {question : Question} {fact : Machine σ → Prop}
    (asked : (question.run host frame).Leads m (fun answer last => answer = false → fact last)
      fun _ _ => True) :
    (Condition.runAll host frame [question.no]).Leads m (fun holds last => holds → fact last)
      fun _ _ => True := by
  have first : (question.no.run host frame).Leads m (fun holds last => holds → fact last) fun _ _ => True := by
    apply Run.Leads.bind asked
    intro answer last denied
    cases answer with
    | true => exact nofun
    | false => exact fun _ => denied rfl
  apply Run.Leads.bind first
  intro holds last found
  cases holds with
  | true => exact found
  | false => exact nofun

theorem Condition.leads_runAll_denied {question : Question} {fact : Machine σ → Prop}
    (asked : ∀ m : Machine σ, (question.run host frame).Leads m
      (fun answer last => answer = false → fact last) fun _ _ => True) (conditions : List Condition) :
    (Condition.runAll host frame (conditions ++ [question.no])).Leads m (fun holds last => holds → fact last)
      fun _ _ => True := by
  induction conditions generalizing m with
  | nil => exact Condition.leads_denied (asked m)
  | cons condition conditions hypothesis =>
    have first : (condition.run host frame).Leads m (fun _ _ => True) fun _ _ => True :=
      Run.leads_iff.mpr ⟨fun _ _ => trivial, fun _ _ => trivial⟩
    apply Run.Leads.bind first
    intro holds middle _
    cases holds with
    | true => exact hypothesis
    | false => exact nofun

end GuardedExpr

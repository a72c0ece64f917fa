import GuardedExpr.Proofs.Code.CompilationRules

/-!
Slots are filled before they are read. What a node becomes works on the slots that the node was given and on no others:
its statements fill all of them, each before any statement reads it, and its code reads none but them. So the parts of a
node do not disturb each other, and what the node itself emits comes behind them.
-/

namespace GuardedExpr

/-! Which slots are read and filled. -/

def Selector.reads : Selector → List Nat
  | .name _ => []
  | .slot index => [index]

namespace Code

mutual

def reads : Code → List Nat
  | .slot index => [index]
  | .array items => readsAll items
  | .object _ values => readsAll values
  | .member container selector => container.reads ++ selector.reads
  | .guarded code => code.reads
  | .call callee arguments => callee :: readsAll arguments
  | .store _ container selector value => container.reads ++ selector.reads ++ value.reads
  | _ => []

def readsAll : List Code → List Nat
  | [] => []
  | code :: codes => code.reads ++ readsAll codes

end

end Code

def Question.reads : Question → List Nat
  | .has container _ => container.reads
  | .holds code => code.reads

def Action.reads : Action → List Nat
  | .assign _ code => code.reads
  | .create container selector => container.reads ++ selector.reads

def Action.filled? : Action → Option Nat
  | .assign slot _ => some slot
  | .create _ _ => none

namespace Statement

def reads : Statement → List Nat
  | .perform action => action.reads
  | .guardedBy conditions action => conditions.flatMap (·.question.reads) ++ action.reads
  | .checkObject code => code.reads
  | .checkName slot => [slot]
  | .checkFunction slot => [slot]
  | .result code => code.reads

def filled? : Statement → Option Nat
  | .perform action | .guardedBy _ action => action.filled?
  | _ => none

structure InOrder (statements : List Statement) : Prop where
  apart : ∀ statement ∈ statements, ∀ slot ∈ statement.reads, statement.filled? ≠ some slot
  sorted : statements.Pairwise fun first later => ∀ slot ∈ first.reads, later.filled? ≠ some slot

structure AreTidy (statements : List Statement) (free next : Nat) : Prop where
  within : ∀ statement ∈ statements, ∀ slot, slot ∈ statement.reads ∨ statement.filled? = some slot →
    free ≤ slot ∧ slot < next
  order : InOrder statements
  full : ∀ slot, free ≤ slot → slot < next → ∃ statement ∈ statements, statement.filled? = some slot

variable {statements more : List Statement} {free middle next : Nat}

theorem inOrder_append (first : InOrder statements) (second : InOrder more)
    (across : ∀ statement ∈ statements, ∀ later ∈ more, ∀ slot ∈ statement.reads, later.filled? ≠ some slot) :
    InOrder (statements ++ more) :=
  ⟨List.forall_mem_append.mpr ⟨first.apart, second.apart⟩,
    List.pairwise_append.mpr ⟨first.sorted, second.sorted, across⟩⟩

theorem areTidy_nil (free : Nat) : AreTidy [] free free :=
  ⟨nofun, ⟨nofun, .nil⟩, fun slot low high => by omega⟩

theorem AreTidy.append (first : AreTidy statements free middle) (second : AreTidy more middle next)
    (low : free ≤ middle) (high : middle ≤ next) : AreTidy (statements ++ more) free next := by
  refine ⟨fun statement member slot used => ?_, inOrder_append first.order second.order ?_, fun slot above below => ?_⟩
  · rcases List.mem_append.mp member with inFirst | inSecond
    · have bounds := first.within statement inFirst slot used
      omega
    · have bounds := second.within statement inSecond slot used
      omega
  · intro statement inFirst later inSecond slot read fills
    have before := first.within statement inFirst slot (.inl read)
    have behind := second.within later inSecond slot (.inr fills)
    omega
  · by_cases early : slot < middle
    · obtain ⟨statement, member, fills⟩ := first.full slot above early
      exact ⟨statement, List.mem_append_left more member, fills⟩
    · obtain ⟨statement, member, fills⟩ := second.full slot (by omega) below
      exact ⟨statement, List.mem_append_right statements member, fills⟩

theorem AreTidy.fill {low high : Nat} (tidy : AreTidy statements free next) (own : Nat)
    (only : ∀ statement ∈ more, statement.filled? = none ∨ statement.filled? = some own)
    (filled : ∃ statement ∈ more, statement.filled? = some own)
    (reads : ∀ statement ∈ more, ∀ slot ∈ statement.reads, free ≤ slot ∧ slot < next)
    (range : own + 1 = free ∧ low = own ∧ high = next ∨ own = next ∧ low = free ∧ high = next + 1)
    (some_ : free ≤ next) : AreTidy (statements ++ more) low high := by
  have fresh (statement : Statement) (member : statement ∈ more) (slot : Nat) (fills : statement.filled? = some slot) :
      slot = own := by
    rcases only statement member with none_ | same
    · rw [none_] at fills
      cases fills
    · rw [same] at fills
      exact (Option.some.inj fills).symm
  have unread {slot : Nat} (inside : free ≤ slot ∧ slot < next) : slot ≠ own := by omega
  refine ⟨fun statement member slot used => ?_, inOrder_append tidy.order ⟨?_, ?_⟩ ?_, fun slot above below => ?_⟩
  · rcases List.mem_append.mp member with old | new
    · have bounds := tidy.within statement old slot used
      omega
    · rcases used with read | fills
      · have bounds := reads statement new slot read
        omega
      · have same := fresh statement new slot fills
        omega
  · intro statement member slot read fills
    exact unread (reads statement member slot read) (fresh statement member slot fills)
  · refine List.pairwise_of_forall_mem_list fun statement member later also slot read fills => ?_
    exact unread (reads statement member slot read) (fresh later also slot fills)
  · intro statement old later new slot read fills
    exact unread (tidy.within statement old slot (.inl read)) (fresh later new slot fills)
  · by_cases here : slot = own
    · obtain ⟨statement, member, fills⟩ := filled
      exact ⟨statement, List.mem_append_right statements member, here ▸ fills⟩
    · obtain ⟨statement, member, fills⟩ := tidy.full slot (by omega) (by omega)
      exact ⟨statement, List.mem_append_left more member, fills⟩

theorem AreTidy.read (tidy : AreTidy statements free next) (fills : ∀ statement ∈ more, statement.filled? = none)
    (reads : ∀ statement ∈ more, ∀ slot ∈ statement.reads, free ≤ slot ∧ slot < next) :
    AreTidy (statements ++ more) free next := by
  have never (statement : Statement) (member : statement ∈ more) (slot : Nat) : statement.filled? ≠ some slot := by
    rw [fills statement member]
    nofun
  refine ⟨fun statement member slot used => ?_, inOrder_append tidy.order ⟨?_, ?_⟩ ?_, fun slot above below => ?_⟩
  · rcases List.mem_append.mp member with old | new
    · exact tidy.within statement old slot used
    · exact used.elim (reads statement new slot) fun fills => absurd fills (never statement new slot)
  · exact fun statement member slot _ => never statement member slot
  · exact List.pairwise_of_forall_mem_list fun _ _ later member slot _ => never later member slot
  · exact fun _ _ later member slot _ => never later member slot
  · obtain ⟨statement, member, fills⟩ := tidy.full slot above below
    exact ⟨statement, List.mem_append_left more member, fills⟩

end Statement

open Statement

def AreAmong (slots : List Nat) (free next : Nat) : Prop :=
  ∀ slot ∈ slots, free ≤ slot ∧ slot < next

section Among

variable {slots more : List Nat} {free next low high : Nat}

theorem AreAmong.mono (among : AreAmong slots free next) (below : low ≤ free) (above : next ≤ high) :
    AreAmong slots low high := by
  intro slot member
  have bounds := among slot member
  omega

theorem areAmong_append : AreAmong (slots ++ more) free next ↔ AreAmong slots free next ∧ AreAmong more free next :=
  List.forall_mem_append

theorem areAmong_singleton {slot : Nat} : AreAmong [slot] free next ↔ free ≤ slot ∧ slot < next :=
  List.forall_mem_singleton

end Among

def Place.reads (place : Place) : List Nat :=
  place.container.reads ++ place.selector.reads

structure Fragment.IsTidy (fragment : Fragment) (free : Nat) : Prop where
  statements : AreTidy fragment.statements free fragment.next
  code : AreAmong fragment.code.reads free fragment.next
  place : ∀ place ∈ fragment.place, AreAmong place.reads free fragment.next

namespace Fragment

variable {fragment : Fragment} {free : Nat}

private theorem isTidy_inline {code : Code} (unread : code.reads = []) (free : Nat) :
    (inline code free).IsTidy free := by
  refine ⟨areTidy_nil free, ?_, nofun⟩
  change AreAmong code.reads free free
  rw [unread]
  nofun

theorem IsTidy.spilled (tidy : fragment.IsTidy free) (le : free ≤ fragment.next) : fragment.spilled.IsTidy free := by
  have filling : AreTidy (fragment.statements ++ [.perform (.assign fragment.next fragment.code)]) free
      (fragment.next + 1) :=
    tidy.statements.fill fragment.next (by simp [Statement.filled?, Action.filled?])
      ⟨_, List.mem_singleton_self _, rfl⟩ (List.forall_mem_singleton.mpr tidy.code) (.inr ⟨rfl, rfl, rfl⟩) le
  exact ⟨filling, areAmong_singleton.mpr ⟨le, Nat.lt_succ_self _⟩, nofun⟩

theorem IsTidy.settled (tidy : fragment.IsTidy free) (le : free ≤ fragment.next) : fragment.settled.IsTidy free :=
  fragment.settled_of (fun _ => tidy.spilled le) fun _ => tidy

end Fragment

private theorem areTidy_resolution (name : Text) (create : Bool) (slot : Nat) :
    AreTidy (resolution name create slot) slot (slot + 1) := by
  have filling : AreTidy ((resolution name create slot).dropLast) slot (slot + 1) := by
    refine (areTidy_nil slot).fill slot ?_ ?_ ?_ (.inr ⟨rfl, rfl, rfl⟩) (Nat.le_refl _)
    · cases create <;> simp [resolution, filled?, Action.filled?]
    · cases create <;> simp [resolution, filled?, Action.filled?]
    · cases create <;> simp [resolution, reads, Question.yes, Question.no, Question.reads, Action.reads, Code.reads,
        Selector.reads]
  have checked : resolution name create slot =
      (resolution name create slot).dropLast ++ [.checkObject (.slot slot)] := by
    cases create <;> rfl
  rw [checked]
  refine filling.read (List.forall_mem_singleton.mpr rfl) (List.forall_mem_singleton.mpr ?_)
  exact areAmong_singleton.mpr ⟨Nat.le_refl _, Nat.lt_succ_self _⟩

/-- The statements that read a member go with those of its container and its key. -/
theorem areTidy_access {statements : List Statement} {slot next : Nat} {container : Code} {selector : Selector}
    (tidy : AreTidy statements (slot + 1) next) (among : AreAmong (container.reads ++ selector.reads) (slot + 1) next)
    (create : Bool) (le : slot + 1 ≤ next) :
    AreTidy (statements ++ access container selector create slot) slot next := by
  have each (read : Nat) (member : read ∈ container.reads ∨ read ∈ selector.reads) : slot + 1 ≤ read ∧ read < next :=
    among read (List.mem_append.mpr member)
  refine tidy.fill slot ?_ ?_ ?_ (.inl ⟨rfl, rfl, rfl⟩) le
  · cases create <;> simp [access, filled?, Action.filled?]
  · cases create <;> simp [access, filled?, Action.filled?]
  · cases create <;>
      simp only [access, if_true, if_false, Bool.false_eq_true, List.nil_append, List.cons_append, List.forall_mem_cons,
        List.not_mem_nil, false_implies, implies_true, and_true, reads, Question.yes, Question.no, Question.reads,
        Action.reads, Code.reads, List.flatMap_cons, List.flatMap_nil, List.append_nil, List.mem_append]
    · rintro read (inContainer | inMember)
      · exact each read (.inl inContainer)
      · exact each read inMember
    · refine ⟨?_, ?_⟩
      · rintro read (inMember | inMember) <;> exact each read inMember
      · rintro read (inContainer | inMember)
        · exact each read (.inl inContainer)
        · exact each read inMember

private theorem Fragment.areTidy_reread {statements : List Statement} {fragment : Fragment}
    {free next : Nat}
    (tidy : AreTidy statements free next) (le : free ≤ next) (code : AreAmong fragment.code.reads free next)
    (place : ∀ place ∈ fragment.place, AreAmong place.reads free next) :
    AreTidy (statements ++ fragment.reread next) free (next + 1) := by
  unfold Fragment.reread
  split
  · next found named =>
    have among := place found named
    refine tidy.fill next ?_ ?_ ?_ (.inr ⟨rfl, rfl, rfl⟩) le
    · simp [filled?, Action.filled?]
    · simp [filled?, Action.filled?]
    · simp only [List.forall_mem_cons, List.not_mem_nil, false_implies, implies_true, and_true, reads, Action.reads,
        Code.reads]
      exact ⟨(areAmong_append.mp among).1, among⟩
  · refine tidy.fill next ?_ ?_ (List.forall_mem_singleton.mpr code) (.inr ⟨rfl, rfl, rfl⟩) le
    · simp [filled?, Action.filled?]
    · simp [filled?, Action.filled?]

private theorem reads_guarded (codes : List Code) :
    Code.readsAll (codes.map .guarded) = Code.readsAll codes := by
  induction codes with
  | nil => rfl
  | cons code codes hypothesis => rw [List.map_cons, Code.readsAll, Code.readsAll, hypothesis, Code.reads]

namespace Node

variable {h : Heap}

private theorem Becomes.isTidy {node : Node} {create : Bool} {free : Nat} {fragment : Fragment}
    (made : node.Becomes h create free fragment) : fragment.IsTidy free := by
  induction made with
  | program _ body =>
    exact ⟨body.statements.read (List.forall_mem_singleton.mpr rfl) (List.forall_mem_singleton.mpr body.code),
      body.code, nofun⟩
  | literal | this | locals | parameter | noItems | noProperties => exact Fragment.isTidy_inline rfl _
  | item one others head tail | property _ one others head tail =>
    exact ⟨head.statements.append tail.statements one.le_next others.le_next,
      areAmong_append.mpr ⟨head.code.mono (Nat.le_refl _) others.le_next, tail.code.mono one.le_next (Nat.le_refl _)⟩,
      nofun⟩
  | @identifier name _ create free =>
    refine ⟨areTidy_resolution name create free,
      areAmong_singleton.mpr ⟨Nat.le_refl _, Nat.lt_succ_self _⟩, fun place named => ?_⟩
    cases named
    nofun
  | @computed _ _ create free inner computed subjectMade keyMade left right =>
    have subject := left.settled subjectMade.le_next
    have key := right.spilled keyMade.le_next
    have low := Nat.le_trans subjectMade.le_next inner.next_le_settled
    have high : inner.settled.next ≤ computed.next + 1 := Nat.le_succ_of_le keyMade.le_next
    have here : AreAmong [computed.next] (free + 1) (computed.next + 1) := key.code.mono low (Nat.le_refl _)
    have both := subject.statements.append key.statements low high
    have checked : AreTidy (inner.settled.statements ++ computed.spilled.statements ++ [.checkName computed.next])
        (free + 1) (computed.next + 1) :=
      both.read (List.forall_mem_singleton.mpr rfl) (List.forall_mem_singleton.mpr here)
    have among := areAmong_append.mpr ⟨subject.code.mono (Nat.le_refl _) high, here⟩
    have le : free + 1 ≤ computed.next + 1 := Nat.le_trans low high
    refine ⟨areTidy_access checked among create le,
      areAmong_singleton.mpr ⟨Nat.le_refl _, le⟩, fun place named => ?_⟩
    cases named
    exact among.mono (Nat.le_succ _) (Nat.le_refl _)
  | @named _ _ create free inner subjectMade _ left =>
    have subject := left.settled subjectMade.le_next
    have low := Nat.le_trans subjectMade.le_next inner.next_le_settled
    have among : AreAmong (inner.settled.code.reads ++ []) (free + 1) inner.settled.next := by
      rw [List.append_nil]
      exact subject.code
    refine ⟨areTidy_access subject.statements among create low,
      areAmong_singleton.mpr ⟨Nat.le_refl _, low⟩, fun place named => ?_⟩
    cases named
    exact among.mono (Nat.le_succ _) (Nat.le_refl _)
  | @call _ _ _ free next _ _ codes calleeMade argumentsMade called handed =>
    have le : _ ≤ next := argumentsMade.le_next
    have low := calleeMade.le_next
    have wide : free ≤ next := Nat.le_trans low le
    have own : AreAmong [next] free (next + 1) := areAmong_singleton.mpr ⟨wide, Nat.lt_succ_self _⟩
    have among : AreAmong (Code.readsAll codes) _ next := handed.code
    have reread := Fragment.areTidy_reread (called.statements.append handed.statements low le) wide
      (called.code.mono (Nat.le_refl _) le) fun place named => (called.place place named).mono (Nat.le_refl _) le
    refine ⟨reread.read (List.forall_mem_singleton.mpr rfl) (List.forall_mem_singleton.mpr own),
      ?_, nofun⟩
    change AreAmong ([next] ++ Code.readsAll (codes.map .guarded)) free (next + 1)
    rw [reads_guarded]
    exact areAmong_append.mpr ⟨own, among.mono low (Nat.le_succ _)⟩
  | assignment left placed right assigned given =>
    exact ⟨assigned.statements.append given.statements left.le_next right.le_next,
      areAmong_append.mpr ⟨(assigned.place _ placed).mono (Nat.le_refl _) right.le_next,
        given.code.mono left.le_next (Nat.le_refl _)⟩, nofun⟩

theorem areTidy_routine {tree : Node} {routine : Routine} (made : tree.routine h = .ok routine) :
    AreTidy routine.statements 0 routine.slots := by
  rw [Node.routine, bind_eq_ok] at made
  obtain ⟨whole, compiled, same⟩ := made
  cases same
  exact (becomes_of_compile tree compiled).isTidy.statements

end Node

end GuardedExpr

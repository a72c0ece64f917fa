import GuardedExpr.Proofs.Code.CompilationRules
import GuardedExpr.Proofs.Code.DeedCounts
import GuardedExpr.Proofs.Node.RegularTrees

/-!
Code that has slots for all that it keeps, makes objects with keys that can be keys, and calls something only where it
may. What a regular tree becomes is such code, and calls nothing where the tree does not.
-/

namespace GuardedExpr

def Selector.isTame (slots : Nat) : Selector → Bool
  | .name _ => true
  | .slot index => index < slots

namespace Code

mutual

/-- Whether code uses the given slots only, has scalars as literals and as the keys of objects, and calls nothing
unless it may. -/
def isTame (calling : Bool) (slots : Nat) : Code → Bool
  | .slot index => index < slots
  | .literal value _ => value.isScalar
  | .array items => areTame calling slots items
  | .object keys values => keys.all (·.1.isScalar) && areTame calling slots values
  | .member container selector => container.isTame calling slots && selector.isTame slots
  | .guarded code => code.isTame calling slots
  | .call callee arguments => calling && callee < slots && areTame calling slots arguments
  | .store _ container selector value =>
    container.isTame calling slots && selector.isTame slots && value.isTame calling slots
  | _ => true

def areTame (calling : Bool) (slots : Nat) : List Code → Bool
  | [] => true
  | code :: codes => code.isTame calling slots && areTame calling slots codes

end

end Code

def Question.isTame (calling : Bool) (slots : Nat) : Question → Bool
  | .has container _ => container.isTame calling slots
  | .holds code => code.isTame calling slots

def Action.isTame (calling : Bool) (slots : Nat) : Action → Bool
  | .assign slot code => slot < slots && code.isTame calling slots
  | .create container selector => container.isTame calling slots && selector.isTame slots

def Statement.isTame (calling : Bool) (slots : Nat) : Statement → Bool
  | .perform action => action.isTame calling slots
  | .guardedBy conditions action =>
    conditions.all (·.question.isTame calling slots) && action.isTame calling slots
  | .checkObject code => code.isTame calling slots
  | .checkName slot => slot < slots
  | .checkFunction slot => slot < slots
  | .result code => code.isTame calling slots

def Statement.areTame (calling : Bool) (slots : Nat) (statements : List Statement) : Bool :=
  statements.all (·.isTame calling slots)

variable {calling : Bool}

@[simp]
theorem Statement.areTame_append {slots : Nat} {first second : List Statement} :
    areTame calling slots (first ++ second) = (areTame calling slots first && areTame calling slots second) :=
  List.all_append

theorem Statement.areTame_singleton {slots : Nat} {statement : Statement} :
    areTame calling slots [statement] = statement.isTame calling slots :=
  Bool.and_true _

structure Fragment.IsTame (calling : Bool) (slots : Nat) (fragment : Fragment) : Prop where
  statements : Statement.areTame calling slots fragment.statements
  code : fragment.code.isTame calling slots
  place : ∀ place ∈ fragment.place, place.container.isTame calling slots ∧ place.selector.isTame slots

namespace Fragment

variable {slots free : Nat} {fragment : Fragment}

theorem IsTame.inline {code : Code} (tame : code.isTame calling slots) (next : Nat) :
    (inline code next).IsTame calling slots :=
  ⟨rfl, tame, nofun⟩

theorem IsTame.spilled (tame : fragment.IsTame calling slots) (room : fragment.next < slots) :
    fragment.spilled.IsTame calling slots := by
  have own : decide (fragment.next < slots) = true := decide_eq_true room
  refine ⟨?_, own, nofun⟩
  simp only [Fragment.spilled, Statement.areTame_append, Statement.areTame_singleton, tame.statements,
    Statement.isTame, Action.isTame, tame.code, own, Bool.and_self]

theorem IsTame.settled (tame : fragment.IsTame calling slots) (room : fragment.settled.next ≤ slots) :
    fragment.settled.IsTame calling slots := by
  revert room
  exact fragment.settled_of (fun _ room => tame.spilled room) fun _ _ => tame

private theorem isTame_reread (tame : fragment.IsTame calling slots) {slot : Nat}
    (room : slot < slots) :
    Statement.areTame calling slots (fragment.reread slot) := by
  have own : decide (slot < slots) = true := decide_eq_true room
  unfold Fragment.reread
  split
  · next place named =>
    obtain ⟨container, selector⟩ := tame.place place named
    simp only [Statement.areTame, List.all_cons, List.all_nil, Statement.isTame, Action.isTame, Code.isTame, container,
      selector, own, Bool.and_self]
  · simp only [Statement.areTame_singleton, Statement.isTame, Action.isTame, tame.code, own, Bool.and_self]

end Fragment

private theorem areTame_guarded {slots : Nat} {codes : List Code}
    (tame : Code.areTame calling slots codes) :
    Code.areTame calling slots (codes.map .guarded) := by
  induction codes with
  | nil => rfl
  | cons code codes hypothesis =>
    obtain ⟨first, others⟩ := Bool.and_eq_true_iff.mp tame
    exact Bool.and_eq_true_iff.mpr ⟨first, hypothesis others⟩

private theorem isTame_resolution {slots slot : Nat} (room : slot < slots) (name : Text)
    (create : Bool) :
    Statement.areTame calling slots (resolution name create slot) := by
  cases create <;>
    simp [resolution, Statement.areTame, Statement.isTame, Question.yes, Question.no, Question.isTame, Action.isTame,
      Code.isTame, Selector.isTame, room]

theorem isTame_access {slots slot : Nat} (room : slot < slots) {container : Code} {selector : Selector}
    (tame : container.isTame calling slots) (keyed : selector.isTame slots) (create : Bool) :
    Statement.areTame calling slots (access container selector create slot) := by
  cases create <;>
    simp [access, Statement.areTame, Statement.isTame, Question.yes, Question.no, Question.isTame, Action.isTame,
      Code.isTame, tame, keyed, room]

namespace Fragment

variable {slots free next : Nat} {fragment index : Fragment}

private theorem isTame_named (subject : fragment.IsTame calling slots) (own : free < slots)
    (name : Text) (create : Bool) :
    IsTame calling slots ⟨fragment.statements ++ access fragment.code (.name name) create free, .slot free,
      some ⟨fragment.code, .name name⟩, fragment.next⟩ := by
  have keyed : (Selector.name name).isTame slots := rfl
  refine ⟨?_, decide_eq_true own, ?_⟩
  · simp only [Statement.areTame_append, subject.statements, isTame_access own subject.code keyed create, Bool.and_self]
  · rintro place ⟨⟩
    exact ⟨subject.code, keyed⟩

private theorem isTame_computed (subject : fragment.IsTame calling slots)
    (key : index.IsTame calling slots)
    (own : free < slots) (keyRoom : index.next < slots) (create : Bool) :
    IsTame calling slots ⟨fragment.statements ++ index.spilled.statements ++ [.checkName index.next] ++
        access fragment.code (.slot index.next) create free,
      .slot free, some ⟨fragment.code, .slot index.next⟩, index.next + 1⟩ := by
  have selected := key.spilled keyRoom
  have slot : (Selector.slot index.next).isTame slots := decide_eq_true keyRoom
  refine ⟨?_, decide_eq_true own, ?_⟩
  · simp only [Statement.areTame_append, Statement.areTame_singleton, subject.statements, selected.statements,
      Statement.isTame, isTame_access own subject.code slot create, decide_eq_true keyRoom, Bool.and_self]
  · rintro place ⟨⟩
    exact ⟨subject.code, slot⟩

private theorem isTame_call {statements : List Statement} {codes : List Code}
    (callee : fragment.IsTame calling slots)
    (arguments : IsTame calling slots ⟨statements, .array codes, none, next⟩) (may : calling = true)
    (own : next < slots) :
    IsTame calling slots ⟨fragment.statements ++ statements ++ fragment.reread next ++ [.checkFunction next],
      .call next (codes.map .guarded), none, next + 1⟩ := by
  refine ⟨?_, ?_, nofun⟩
  · have prepared : Statement.areTame calling slots statements := arguments.statements
    simp only [Statement.areTame_append, Statement.areTame_singleton, callee.statements, prepared,
      isTame_reread callee own, Statement.isTame, decide_eq_true own, Bool.and_self]
  · rw [Code.isTame, areTame_guarded arguments.code, may, decide_eq_true own]
    rfl

end Fragment

namespace Node

open Fragment

/-- What a regular tree becomes is tame, with all the slots that it was given, and calls nothing where the tree does
not. -/
theorem Becomes.isTame {h : Heap} {slots : Nat} {node : Node} {create : Bool} {free : Nat} {fragment : Fragment}
    (made : node.Becomes h create free fragment) (regular : node.isRegular)
    (quiet : calling = false → node.calls = 0) (room : fragment.next ≤ slots) : fragment.IsTame calling slots := by
  induction made with
  | program | parameter => cases regular
  | literal value =>
    have tame : (Code.literal value (h.escape value)).isTame calling slots := regular
    exact .inline tame _
  | this | locals | noItems | noProperties => exact .inline rfl _
  | item _ others head tail =>
    obtain ⟨one, rest⟩ := Bool.and_eq_true_iff.mp regular
    have noFirst (still : calling = false) := (Nat.add_eq_zero_iff.mp (quiet still)).1
    have noOther (still : calling = false) := (Nat.add_eq_zero_iff.mp (quiet still)).2
    have first := head one noFirst (Nat.le_trans others.le_next room)
    have further := tail rest noOther room
    refine ⟨?_, Bool.and_eq_true_iff.mpr ⟨first.code, further.code⟩, nofun⟩
    rw [Statement.areTame_append, first.statements, further.statements, Bool.and_self]
  | property keyed _ others head tail =>
    obtain ⟨both, rest⟩ := Bool.and_eq_true_iff.mp regular
    obtain ⟨isKey, one⟩ := Bool.and_eq_true_iff.mp both
    have noFirst (still : calling = false) :=
      (Nat.add_eq_zero_iff.mp (Nat.add_eq_zero_iff.mp (quiet still)).1).2
    have noOther (still : calling = false) := (Nat.add_eq_zero_iff.mp (quiet still)).2
    have first := head one noFirst (Nat.le_trans others.le_next room)
    have further := tail rest noOther room
    have tame := further.code
    simp only [Code.isTame, Bool.and_eq_true] at tame
    refine ⟨?_, ?_, nofun⟩
    · rw [Statement.areTame_append, first.statements, further.statements, Bool.and_self]
    · simp only [Code.isTame, Code.areTame, List.all_cons, isScalar_of_propertyKey (isWritten_of_isKey isKey) keyed, first.code, tame,
        Bool.and_self]
  | @identifier name _ create =>
    refine ⟨isTame_resolution room name create, decide_eq_true room, ?_⟩
    rintro place ⟨⟩
    exact ⟨rfl, rfl⟩
  | @computed _ _ create free inner index subject key left right =>
    obtain ⟨one, other⟩ := Bool.and_eq_true_iff.mp regular
    have noLeft (still : calling = false) := (Nat.add_eq_zero_iff.mp (quiet still)).1
    have noRight (still : calling = false) := (Nat.add_eq_zero_iff.mp (quiet still)).2
    -- The member's own slot comes first, then those of the subject, then those of the key.
    have above := subject.le_next
    have settled := inner.next_le_settled
    have beyond := key.le_next
    have keyRoom : index.next < slots := room
    have own : free < slots := by omega
    exact isTame_computed ((left one noLeft (by omega)).settled (by omega)) (right other noRight (by omega)) own keyRoom
      create
  | @named _ name create free inner subject _ left =>
    have noLeft (still : calling = false) := (Nat.add_eq_zero_iff.mp (quiet still)).1
    have above := subject.le_next
    have settled := inner.next_le_settled
    have subjectRoom : inner.settled.next ≤ slots := room
    have own : free < slots := by omega
    exact isTame_named ((left regular noLeft (by omega)).settled subjectRoom) own name create
  | @call _ _ _ _ next _ _ _ _ arguments called handed =>
    obtain ⟨one, others⟩ := Bool.and_eq_true_iff.mp regular
    have may : calling = true := by
      by_contra still
      exact Nat.succ_ne_zero _ (quiet ((Bool.not_eq_true _).mp still))
    have vacuous {count : Nat} (still : calling = false) : count = 0 := absurd (may.symm.trans still) nofun
    have own : next < slots := room
    exact isTame_call (called one vacuous (Nat.le_trans arguments.le_next (Nat.le_of_lt own)))
      (handed others vacuous (Nat.le_of_lt own)) may own
  | assignment _ placed right assigned given =>
    obtain ⟨one, other⟩ := Bool.and_eq_true_iff.mp regular
    have noLeft (still : calling = false) := (Nat.add_eq_zero_iff.mp (quiet still)).1
    have noRight (still : calling = false) := (Nat.add_eq_zero_iff.mp (quiet still)).2
    have target := assigned one noLeft (Nat.le_trans right.le_next room)
    have value := given other noRight room
    obtain ⟨container, selector⟩ := target.place _ placed
    refine ⟨?_, ?_, nofun⟩
    · rw [Statement.areTame_append, target.statements, value.statements, Bool.and_self]
    · simp only [Code.isTame, container, selector, value.code, Bool.and_self]

/-- The routine of a regular tree is tame, and calls nothing where the tree does not. -/
theorem isTame_routine_calling {h : Heap} {body : Node} {routine : Routine} (regular : body.isRegular)
    (quiet : calling = false → body.calls = 0) (made : (Node.program body).routine h = .ok routine) :
    Statement.areTame calling routine.slots routine.statements := by
  obtain ⟨inner, bodyCompiled, rfl⟩ := parts_routine made
  have tame : inner.IsTame calling inner.next :=
    (becomes_of_compile body bodyCompiled).isTame regular quiet (Nat.le_refl _)
  simp only [Statement.areTame_append, Statement.areTame_singleton, Statement.isTame, tame.statements, tame.code,
    Bool.and_self]

theorem isTame_routine {h : Heap} {body : Node} {routine : Routine} (regular : body.isRegular)
    (quiet : body.calls = 0) (made : (Node.program body).routine h = .ok routine) :
    Statement.areTame false routine.slots routine.statements :=
  isTame_routine_calling regular (fun _ => quiet) made

end Node

end GuardedExpr

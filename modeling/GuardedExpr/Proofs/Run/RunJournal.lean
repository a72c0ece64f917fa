import GuardedExpr.Proofs.Code.SlotStandings
import GuardedExpr.Proofs.Heap.ClassifiedValues
import GuardedExpr.Proofs.Run.RunPostconditions

/-!
What the journal of a run tells. Code that passes the check leaves an orderly journal: a key or a function
from a slot is used only after it was put there, once, and found fit. And whatever is done with an object is
done with one that is fit to be used, in any sense of the word that the guard of objects establishes and
that nothing takes away again.
-/

namespace GuardedExpr

namespace Event

def slot? : Event → Option Nat
  | .kept slot _ => some slot
  | .cleared slot _ => some slot
  | .admitted slot _ => some slot
  | _ => none

def keptIn (slot : Nat) (journal : List Event) : List Value :=
  journal.filterMap fun event => match event with
    | .kept other value => if other = slot then some value else none
    | _ => none

def Unchecked (slot : Nat) (past : List Event) : Prop :=
  ∀ value, .cleared slot value ∉ past ∧ .admitted slot value ∉ past

def objects : Event → List Value
  | .asked container _ _ => [container]
  | .read container _ _ _ => [container]
  | .created container _ _ made => [container, made]
  | .stored _ container _ _ value => [container, value]
  | .invoked _ _ arguments => arguments
  | .built items => items
  | _ => []

end Event

def Selector.Presents (past : List Event) (key : Value) : Selector → Prop
  | .name field => key = .text field ∧ Guard.isSafeName field
  | .slot index => .cleared index key ∈ past

theorem Selector.Presents.mono {past later : List Event} {key : Value} {selector : Selector}
    (presents : selector.Presents past key) (grown : ∀ event ∈ past, event ∈ later) :
    selector.Presents later key := by
  cases selector with
  | name field => exact presents
  | slot index => exact grown _ presents

namespace Event

def Follows (past : List Event) : Event → Prop
  | .kept slot _ => Unchecked slot past
  | .asked _ name _ => Guard.isSafeName name
  | .read _ selector key _ => selector.Presents past key
  | .created _ selector key _ => selector.Presents past key
  | .stored _ _ selector key _ => selector.Presents past key
  | .cleared slot key =>
    keptIn slot past = [key] ∧ Unchecked slot past ∧ Guard.memberName key = .ok ()
  | .admitted slot callee => keptIn slot past = [callee] ∧ Unchecked slot past ∧ callee.IsAdmissible
  | .invoked slot callee _ => .admitted slot callee ∈ past
  | .built _ => True

/-- Whether every event of a journal may follow on those before it. -/
def Orderly : List Event → Prop
  | [] => True
  | event :: past => event.Follows past ∧ Orderly past

theorem keptIn_cons {event : Event} {slot : Nat} (elsewhere : event.slot? ≠ some slot)
    (journal : List Event) : keptIn slot (event :: journal) = keptIn slot journal := by
  cases event with
  | kept other value =>
    have different : other ≠ slot := fun same => elsewhere (by simp [slot?, same])
    simp [keptIn, different]
  | _ => rfl

theorem keptIn_kept (slot : Nat) (value : Value) (journal : List Event) :
    keptIn slot (.kept slot value :: journal) = value :: keptIn slot journal := by
  simp [keptIn]

theorem Unchecked.cons {event : Event} {slot : Nat} {journal : List Event}
    (unchecked : Unchecked slot journal) (elsewhere : event.slot? ≠ some slot) :
    Unchecked slot (event :: journal) := by
  intro value
  constructor
  · rintro (_ | ⟨_, earlier⟩)
    · exact elsewhere rfl
    · exact (unchecked value).1 earlier
  · rintro (_ | ⟨_, earlier⟩)
    · exact elsewhere rfl
    · exact (unchecked value).2 earlier

theorem Unchecked.kept {slot : Nat} {journal : List Event} (unchecked : Unchecked slot journal)
    (value : Value) : Unchecked slot (.kept slot value :: journal) := by
  intro other
  constructor
  · rintro (_ | ⟨_, earlier⟩)
    exact (unchecked other).1 earlier
  · rintro (_ | ⟨_, earlier⟩)
    exact (unchecked other).2 earlier

end Event

namespace Event

variable {journal past later : List Event} {event : Event} {slot : Nat} {value : Value}

theorem Orderly.follows (orderly : Orderly journal) (split : journal = later ++ event :: past) :
    event.Follows past := by
  subst split
  induction later with
  | nil => exact orderly.1
  | cons newer later hypothesis => exact hypothesis orderly.2

theorem Orderly.keptIn_of_checked (orderly : Orderly journal)
    (checked : .cleared slot value ∈ journal ∨ .admitted slot value ∈ journal) :
    keptIn slot journal = [value] := by
  induction journal with
  | nil => simp at checked
  | cons event past hypothesis =>
    obtain ⟨follows, orderly⟩ := orderly
    by_cases earlier : .cleared slot value ∈ past ∨ .admitted slot value ∈ past
    · have once := hypothesis orderly earlier
      rcases Classical.em (event.slot? = some slot) with here | elsewhere
      · have unchecked : Unchecked slot past := by
          cases event <;> simp only [slot?, Option.some.injEq, reduceCtorEq] at here <;> subst here
          · exact follows
          · exact follows.2.1
          · exact follows.2.1
        exact absurd earlier (not_or.mpr (unchecked value))
      · rw [keptIn_cons elsewhere, once]
    · rcases checked with here | here <;> rcases List.mem_cons.mp here with rfl | older
      · exact follows.1
      · exact absurd (.inl older) earlier
      · exact follows.1
      · exact absurd (.inr older) earlier

theorem Orderly.eq_of_checked (orderly : Orderly journal) {other : Value}
    (first : .cleared slot value ∈ journal ∨ .admitted slot value ∈ journal)
    (second : .cleared slot other ∈ journal ∨ .admitted slot other ∈ journal) : other = value := by
  have once := orderly.keptIn_of_checked first
  rw [orderly.keptIn_of_checked second] at once
  exact List.singleton_inj.mp once

end Event

def Standing.Holds (fit : Value → Prop) (journal : List Event) (slot : Nat) (held : Option Value) :
    Standing → Prop
  | .empty => Event.keptIn slot journal = [] ∧ Event.Unchecked slot journal ∧
      ∀ value, held = some value → value = .null
  | .loose => Event.Unchecked slot journal
  | .filled isFit => ∃ value, held = some value ∧ Event.keptIn slot journal = [value] ∧
      Event.Unchecked slot journal ∧ (isFit → fit value)
  | .key => ∃ value, held = some value ∧ .cleared slot value ∈ journal
  | .callee => ∃ value, held = some value ∧ .admitted slot value ∈ journal
  | .object => Event.Unchecked slot journal ∧ ∀ value, held = some value → fit value

namespace Standing

variable {fit better : Value → Prop} {journal : List Event} {slot : Nat} {held : Option Value}
  {standing : Standing}

theorem Holds.cons (holds : standing.Holds fit journal slot held) {event : Event}
    (elsewhere : event.slot? ≠ some slot) : standing.Holds fit (event :: journal) slot held := by
  have same := Event.keptIn_cons elsewhere journal
  cases standing with
  | empty => exact ⟨same.trans holds.1, holds.2.1.cons elsewhere, holds.2.2⟩
  | loose => exact Event.Unchecked.cons holds elsewhere
  | filled isFit =>
    obtain ⟨value, present, once, unchecked, good⟩ := holds
    exact ⟨value, present, same.trans once, unchecked.cons elsewhere, good⟩
  | key =>
    obtain ⟨value, present, cleared⟩ := holds
    exact ⟨value, present, List.mem_cons_of_mem _ cleared⟩
  | callee =>
    obtain ⟨value, present, admitted⟩ := holds
    exact ⟨value, present, List.mem_cons_of_mem _ admitted⟩
  | object => exact ⟨holds.1.cons elsewhere, holds.2⟩

theorem Holds.mono (holds : standing.Holds fit journal slot held)
    (later : ∀ value, fit value → better value) : standing.Holds better journal slot held := by
  cases standing with
  | filled isFit =>
    obtain ⟨value, present, once, unchecked, good⟩ := holds
    exact ⟨value, present, once, unchecked, fun isFit => later value (good isFit)⟩
  | object => exact ⟨holds.1, fun value present => later value (holds.2 value present)⟩
  | _ => exact holds

theorem Holds.unchecked (holds : standing.Holds fit journal slot held) (isOpen : standing.isOpen) :
    Event.Unchecked slot journal := by
  cases standing with
  | empty => exact holds.2.1
  | loose => exact holds
  | object => exact holds.1
  | _ => cases isOpen

theorem Holds.fits {value : Value} (holds : standing.Holds fit journal slot (some value))
    (isFit : standing.isFit) : fit value := by
  cases standing with
  | filled known =>
    obtain ⟨_, same, _, _, fits⟩ := holds
    cases same
    exact fits isFit
  | object => exact holds.2 value rfl
  | _ => cases isFit

/-- What is known of a slot that may have been filled holds where it was not. -/
theorem Holds.refilled (holds : standing.Holds fit journal slot held) (isOpen : standing.isOpen)
    (null : fit .null) (isFit : Bool) : (standing.refilled isFit).Holds fit journal slot held := by
  have unchecked := holds.unchecked isOpen
  cases standing with
  | empty =>
    cases isFit with
    | false => exact unchecked
    | true => exact ⟨unchecked, fun value present => holds.2.2 value present ▸ null⟩
  | object =>
    cases isFit with
    | false => exact unchecked
    | true => exact holds
  | _ => exact unchecked

/-- What is known of a slot that may have been filled holds where it was. -/
theorem holds_refilled (unchecked : Event.Unchecked slot journal) {value : Value} {isFit : Bool}
    (good : isFit → fit value) : (standing.refilled isFit).Holds fit journal slot (some value) := by
  have object : isFit → Holds fit journal slot (some value) .object :=
    fun isFit => ⟨unchecked, fun _ same => Option.some.inj same ▸ good isFit⟩
  cases standing <;> cases isFit <;> first | exact unchecked | exact object rfl

end Standing

end GuardedExpr

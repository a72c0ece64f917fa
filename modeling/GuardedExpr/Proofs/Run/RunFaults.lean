import GuardedExpr.Proofs.Code.TameCode
import GuardedExpr.Proofs.Heap.ClosedHeaps
import GuardedExpr.Proofs.Heap.EndlessInquiries

/-!
The faults that end a run without calls. Each comes of one of six causes, which can be told from the machine that
the run leaves behind: of its heap, and of the last event in its journal.
-/

namespace GuardedExpr

variable {σ : Type}

def Event.key? : Event → Option Value
  | .read _ _ key _ => some key
  | .created _ _ key _ => some key
  | .stored _ _ _ key _ => some key
  | _ => none

/-- The causes of faults in a run that calls nothing. -/
inductive Machine.Escapes (m : Machine σ) : Error → Prop where
  /-- The classification of a value has no end. -/
  | endless {v : Value} (endless : m.heap.IsEndless v) : m.Escapes (.fault .endless)
  /-- The last key is a text of so many figures that it is not converted to a number. -/
  | tooManyDigits {event : Event} {past : List Event} {key : Value} {t : Text} (last : m.journal = event :: past)
      (used : event.key? = some key) (spelled : key.plain = .text t) (figures : t.all CodePoint.isFigure)
      (long : Numeral.digitLimit < t.length) : m.Escapes (.fault (.tooManyDigits t.length))
  /-- The last key is a text of figures, one of which is no decimal digit. -/
  | undecidedDigits {event : Event} {past : List Event} {key : Value} {t : Text} (last : m.journal = event :: past)
      (used : event.key? = some key) (spelled : key.plain = .text t) (figures : t.all CodePoint.isFigure)
      (undecided : ∃ c ∈ t, c.decimal? = none) : m.Escapes (.fault (.undecidedDigits t))
  /-- The key of the last write is to be shown, but holds a number of so many digits that it is not. -/
  | unshown {event : Event} {past : List Event} {key : Value} {count : Nat} (last : m.journal = event :: past)
      (used : event.key? = some key) (long : m.heap.overlong? key = some count) :
      m.Escapes (.fault (.tooManyDigits count))
  /-- The last write was to a position that no list can have. -/
  | indexOverflow {event : Event} {past : List Event} {r : Ref} {key value : Value} {items : List Value}
      {position : Int} (last : m.journal = event :: past) (writes : event.write? = some (.ref r, key, value))
      (cell : m.heap.cell r = .list items) (means : key.position? = .ok (some position))
      (beyond : items.length + Heap.listLimit ≤ position.toNat + 1) : m.Escapes (.fault .indexOverflow)
  /-- The last write was to a position that no memory has room for. -/
  | outOfMemory {event : Event} {past : List Event} {r : Ref} {key value : Value} {items : List Value}
      {position : Int} (last : m.journal = event :: past) (writes : event.write? = some (.ref r, key, value))
      (cell : m.heap.cell r = .list items) (means : key.position? = .ok (some position))
      (beyond : items.length + Heap.memoryLimit ≤ position.toNat + 1) : m.Escapes (.fault .outOfMemory)

def Machine.Accounts (m : Machine σ) (failure : Error) : Prop :=
  failure.isReported ∨ m.Escapes failure

namespace Numeral

private theorem exists_of_ofDecimals? {t : Text} (undecided : ofDecimals? t = none) :
    ∃ c ∈ t, c.decimal? = none := by
  have spelled (digits : Text) (all : ∀ c ∈ digits, c.decimal?.isSome) (n : Nat) :
      (digits.foldl (fun n c => do return 10 * (← n) + (← c.decimal?)) (some n)).isSome := by
    induction digits generalizing n with
    | nil => rfl
    | cons c digits hypothesis =>
      obtain ⟨d, decimal⟩ := Option.isSome_iff_exists.mp (all c List.mem_cons_self)
      rw [List.foldl_cons, decimal]
      exact hypothesis (fun d member => all d (List.mem_cons_of_mem c member)) _
  by_contra none_
  have all : ∀ c ∈ t, c.decimal?.isSome := fun c member =>
    Option.ne_none_iff_isSome.mp fun missing => none_ ⟨c, member, missing⟩
  have some_ := spelled t all 0
  rw [show t.foldl _ (some 0) = ofDecimals? t from rfl, undecided] at some_
  cases some_

end Numeral

theorem Value.position?_eq_error {key : Value} {failure : Error} (failed : key.position? = .error failure) :
    ∃ t, key.plain = .text t ∧ t.all CodePoint.isFigure ∧
      ((Numeral.digitLimit < t.length ∧ failure = .fault (.tooManyDigits t.length)) ∨
        ((∃ c ∈ t, c.decimal? = none) ∧ failure = .fault (.undecidedDigits t))) := by
  unfold position? at failed
  generalize key.plain = plain at failed ⊢
  cases plain with
  | text t =>
    dsimp only at failed
    split at failed
    · cases failed
    · next figures =>
      have all : t.all CodePoint.isFigure := by
        simp only [Bool.or_eq_true, Bool.not_eq_true', not_or] at figures
        simpa using figures.2
      refine ⟨t, rfl, all, ?_⟩
      split at failed
      · next long =>
        cases failed
        exact .inl ⟨long, rfl⟩
      · split at failed
        · cases failed
        · next undecided =>
          cases failed
          exact .inr ⟨Numeral.exists_of_ofDecimals? undecided, rfl⟩
  | _ => cases failed

namespace Heap

variable {h : Heap} {v container key value : Value} {failure : Error} {name : Text}

theorem ended_eq_error {α : Type} {answer : Option α} (failed : ended answer = .error failure) :
    failure = .fault .endless ∧ answer = none := by
  cases answer with
  | some _ => cases failed
  | none =>
    cases failed
    exact ⟨rfl, rfl⟩

theorem classify_eq_error (failed : h.classify v = .error failure) :
    failure = .fault .endless ∧ h.IsEndless v :=
  (ended_eq_error failed).imp_right kind?_eq_none_iff.mp

theorem isTruthy_eq_error (failed : h.isTruthy v = .error failure) :
    failure = .fault .endless ∧ h.IsEndless v :=
  (ended_eq_error failed).imp_right fun missing => kind?_eq_none_iff.mp (Option.map_eq_none_iff.mp missing)

theorem hasMember_eq_error (failed : h.hasMember container name = .error failure) :
    failure = .fault .endless ∧ h.IsEndless container := by
  rcases bind_eq_error.mp failed with truth | ⟨answer, _, rest⟩
  · exact isTruthy_eq_error truth
  · split at rest
    · cases rest
    · split at rest <;> cases rest

theorem positionedMember_eq_error {α : Type} {items : List α} {shape : α → Value}
    (failed : h.positionedMember container items shape key = .error failure) :
    key.position? = .error failure := by
  rcases bind_eq_error.mp failed with position | ⟨position, _, rest⟩
  · exact position
  · cases position with
    | some position => cases rest
    | none =>
      dsimp only at rest
      split at rest <;> cases rest

theorem getMember_eq_error (failed : h.getMember container key = .error failure) :
    key.position? = .error failure := by
  unfold getMember at failed
  split at failed
  · cases failed
  · exact positionedMember_eq_error failed
  · split at failed
    · cases failed
    · exact positionedMember_eq_error failed
    · cases failed

end Heap

theorem Guard.object_eq_error {h : Heap} {v : Value} {failure : Error} (failed : Guard.object h v = .error failure) :
    failure.isReported ∨ (failure = .fault .endless ∧ h.IsEndless v) := by
  rcases bind_eq_error.mp failed with kind | ⟨kind, _, rest⟩
  · exact .inr (Heap.classify_eq_error kind)
  · left
    split at rest <;> cases rest
    rfl

theorem Guard.function_eq_error {h : Heap} {v : Value} {failure : Error}
    (failed : Guard.function h v = .error failure) :
    failure.isReported ∨ (failure = .fault .endless ∧ h.IsEndless v) := by
  rcases bind_eq_error.mp failed with kind | ⟨kind, _, rest⟩
  · exact .inr (Heap.classify_eq_error kind)
  · left
    split at rest <;> cases rest
    rfl

theorem Guard.memberName_eq_error {key : Value} {failure : Error} (failed : Guard.memberName key = .error failure) :
    failure.isReported := by
  unfold Guard.memberName at failed
  split at failed
  · split at failed <;> cases failed
    rfl
  · cases failed

namespace Machine

variable {m : Machine σ} {failure : Error}

theorem accounts_of_endless {v : Value} (found : failure = .fault .endless ∧ m.heap.IsEndless v) :
    m.Accounts failure := by
  obtain ⟨rfl, endless⟩ := found
  exact .inr (.endless endless)

theorem accounts_of_position {event : Event} {key : Value} (used : event.key? = some key)
    (failed : key.position? = .error failure) : (m.note event).Accounts failure := by
  obtain ⟨t, spelled, figures, ⟨long, rfl⟩ | ⟨undecided, rfl⟩⟩ := Value.position?_eq_error failed
  · exact .inr (.tooManyDigits rfl used spelled figures long)
  · exact .inr (.undecidedDigits rfl used spelled figures undecided)

section Writes

variable {event : Event} {container key value : Value}

theorem accounts_of_showing (used : event.key? = some key) {error : Text → Error}
    (reported : ∀ shown, (error shown).isReported) : (m.note event).Accounts (m.heap.showing key error) := by
  unfold Heap.showing
  cases long : m.heap.overlong? key with
  | none => exact .inl (reported _)
  | some count => exact .inr (.unshown rfl used long)

theorem accounts_of_setNamed (used : event.key? = some key)
    (failed : m.heap.setNamed container key value = .error failure) : (m.note event).Accounts failure := by
  have unsettable : (m.note event).Accounts (m.heap.unsettable container key) :=
    accounts_of_showing used fun _ => rfl
  rcases bind_eq_error.mp failed with kind | ⟨kind, _, rest⟩
  · exact accounts_of_endless (Heap.classify_eq_error kind)
  · dsimp only at rest
    split at rest
    · cases rest
      exact unsettable
    · split at rest
      · split at rest <;> cases rest
        exact unsettable
      · cases rest
        exact unsettable

private theorem accounts_of_setItem {r : Ref} {items : List Value}
    (cell : m.heap.cell r = .list items)
    (writes : event.write? = some (.ref r, key, value)) (used : event.key? = some key)
    (failed : m.heap.setItem r items key value = .error failure) : (m.note event).Accounts failure := by
  have unsettable : (m.note event).Accounts (m.heap.showing key .unsettableIndex) :=
    accounts_of_showing used fun _ => rfl
  rcases bind_eq_error.mp failed with position | ⟨position, means, rest⟩
  · exact accounts_of_position used position
  · cases position with
    | none =>
      cases rest
      exact unsettable
    | some position =>
      dsimp only at rest
      split at rest
      · cases rest
        exact unsettable
      · split at rest
        · next beyond =>
          cases rest
          exact .inr (.indexOverflow rfl writes cell means beyond)
        · split at rest
          · next beyond =>
            cases rest
            exact .inr (.outOfMemory rfl writes cell means beyond)
          · cases rest

theorem accounts_of_setMember (writes : event.write? = some (container, key, value))
    (used : event.key? = some key) (failed : m.heap.setMember container key value = .error failure) :
    (m.note event).Accounts failure := by
  unfold Heap.setMember at failed
  split at failed
  · split at failed
    · exact accounts_of_setNamed used failed
    · split at failed
      · cases failed
      · cases failed
        exact accounts_of_showing used fun _ => rfl
    · next items cell => exact accounts_of_setItem cell writes used failed
    · exact accounts_of_setNamed used failed
  · exact accounts_of_setNamed used failed

end Writes

end Machine

end GuardedExpr

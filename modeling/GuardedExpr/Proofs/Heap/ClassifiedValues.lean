import GuardedExpr.Guard

/-!
What the guards accept. A kind that a value is marked with is its kind, and the guards refuse a function
for a mark alone, so that a function which was accepted once is never refused in another heap.
-/

namespace GuardedExpr

theorem bind_eq_ok {ε α β : Type} {first : Except ε α} {next : α → Except ε β} {result : β} :
    (first >>= next) = .ok result ↔ ∃ value, first = .ok value ∧ next value = .ok result := by
  cases first with
  | error failure => exact ⟨nofun, nofun⟩
  | ok value =>
    constructor
    · intro done
      exact ⟨value, rfl, done⟩
    · intro found
      obtain ⟨_, same, done⟩ := found
      cases same
      exact done

theorem exists_eq_ok {ε α : Type} {outcome : Except ε α} {check : α → Bool}
    (checked : outcome.toOption.any check) : ∃ value, outcome = .ok value ∧ check value := by
  cases outcome with
  | ok value => exact ⟨value, rfl, checked⟩
  | error failure => cases checked

namespace Heap

variable {h : Heap} {v : Value} {kind : Kind}

theorem kindWithin_of_marked (marked : h.markedKind? v = some kind) (depth : Nat) :
    h.kindWithin (depth + 1) v = some kind := by
  simp only [kindWithin, marked]

theorem kind?_of_marked (marked : h.markedKind? v = some kind) : h.kind? v = some kind :=
  kindWithin_of_marked marked _

theorem markedKind?_outside (h : Heap) {r : Ref} (outside : h.size ≤ r) :
    h.markedKind? (.ref r) = some .hostGlobal := by
  simp only [markedKind?, h.cell_outside outside, Cell.mark?]

theorem ended_eq_ok {α : Type} {question : Option α} {answer : α} :
    ended question = .ok answer ↔ question = some answer := by
  cases question <;> simp [ended]

theorem classify_eq_ok : h.classify v = .ok kind ↔ h.kind? v = some kind :=
  ended_eq_ok

theorem kind_of_unmarked (unmarked : h.markedKind? v = none) {depth : Nat}
    (decided : h.kindWithin depth v = some kind) :
    kind = .hostGlobal ∨ kind = .hostNode ∨ kind = h.plainKind v := by
  cases depth with
  | zero => cases decided
  | succ depth =>
    simp only [kindWithin, unmarked] at decided
    split at decided
    · exact .inl (Option.some.inj decided).symm
    · obtain ⟨shaped, _, same⟩ := Option.bind_eq_some_iff.mp decided
      cases shaped with
      | true => exact .inr (.inl (Option.some.inj same).symm)
      | false => exact .inr (.inr (Option.some.inj same).symm)

private theorem functionRefusal?_plainKind (h : Heap) (v : Value) :
    Guard.functionRefusal? (h.plainKind v) = none := by
  unfold plainKind
  split
  · split <;> rfl
  · rfl

private theorem markedKind?_of_refused (decided : h.kind? v = some kind)
    (refused : Guard.functionRefusal? kind ≠ none) : h.markedKind? v = some kind := by
  cases marked : h.markedKind? v with
  | some other => rw [← decided, kind?_of_marked marked]
  | none =>
    exfalso
    apply refused
    rcases kind_of_unmarked marked decided with rfl | rfl | rfl
    · rfl
    · rfl
    · exact functionRefusal?_plainKind h v

private theorem markedKind?_of_other (marked : h.markedKind? v = some kind)
    (refused : Guard.functionRefusal? kind ≠ none) (other : Heap) : other.markedKind? v = some kind := by
  cases v with
  | ref r =>
    exfalso
    apply refused
    simp only [markedKind?, Cell.mark?] at marked
    split at marked <;> cases marked <;> rfl
  | constructor c => cases c <;> exact marked
  | _ => exact marked

end Heap

namespace Guard

variable {h : Heap} {v : Value}

theorem object_eq_ok :
    object h v = .ok () ↔ ∃ kind, h.kind? v = some kind ∧ objectRefusal? kind = none := by
  unfold object
  rw [bind_eq_ok]
  refine exists_congr fun kind => ?_
  rw [Heap.classify_eq_ok]
  cases refusal : objectRefusal? kind <;> simp [pure, Except.pure, throw, throwThe, MonadExceptOf.throw]

private theorem function_eq_ok :
    function h v = .ok () ↔ ∃ kind, h.kind? v = some kind ∧ functionRefusal? kind = none := by
  unfold function
  rw [bind_eq_ok]
  refine exists_congr fun kind => ?_
  rw [Heap.classify_eq_ok]
  cases refusal : functionRefusal? kind <;> simp [pure, Except.pure, throw, throwThe, MonadExceptOf.throw]

end Guard

def Value.IsAdmissible (callee : Value) : Prop :=
  ∀ (h : Heap) (kind : Kind), h.kind? callee = some kind → Guard.functionRefusal? kind = none

theorem Value.IsAdmissible.classify_ne {callee : Value} (admissible : callee.IsAdmissible) (h : Heap) :
    h.classify callee ≠ .ok .constructor ∧ h.classify callee ≠ .ok .reflective := by
  have allowed (kind : Kind) (classified : h.classify callee = .ok kind) :
      Guard.functionRefusal? kind = none :=
    admissible h kind (Heap.classify_eq_ok.mp classified)
  constructor
  · intro classified
    cases allowed _ classified
  · intro classified
    cases allowed _ classified

theorem Guard.isAdmissible_of_function {h : Heap} {callee : Value}
    (accepted : Guard.function h callee = .ok ()) : callee.IsAdmissible := by
  intro other kind decided
  obtain ⟨first, here, allowed⟩ := function_eq_ok.mp accepted
  cases refusal : Guard.functionRefusal? kind with
  | none => rfl
  | some reason =>
    have refused : Guard.functionRefusal? kind ≠ none := by simp [refusal]
    have marked := Heap.markedKind?_of_other (Heap.markedKind?_of_refused decided refused) refused h
    rw [Heap.kind?_of_marked marked] at here
    cases here
    exact absurd allowed refused

end GuardedExpr

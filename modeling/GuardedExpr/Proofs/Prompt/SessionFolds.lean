import GuardedExpr.Proofs.Prompt.SessionOutcomes
import GuardedExpr.Proofs.Run.LocalRuns
import Mathlib.Data.List.DropRight

/-!
Sessions as folds. What a session has come to is told by the expressions since its scope was last made empty: each of
them goes on where the one before has stopped, whether that failed or not. Commands, blank lines and interrupts in
between leave nothing behind but the choice whether failures are traced.
-/

namespace GuardedExpr

namespace Input

end Input

namespace Session

variable {session : Session} {line : Text} {lines : List Text} {input : Input} {inputs : List Input}
  {failure : Error}

def after (session : Session) (inputs : List Input) : Session :=
  inputs.foldl (fun session input => (session.respond input).session) session

def finish (session : Session) (inputs : List Input) : Session :=
  ((session.respondAll inputs).getLast?.map Reply.session).getD session

structure HasNewScope (session : Session) (r : Ref) : Prop where
  scope : session.scope = .ref r
  size : session.heap.size = r + 1
  empty : session.heap.cell r = .mapping .plain []

structure IsKin (session other : Session) : Prop where
  world : other.world = session.world
  settings : other.settings = session.settings
  host : other.host = session.host
  output : other.output = session.output

/-- Sessions with the same scope and the same containers from there on, among which the scope is and all that it leads
to. -/
structure Twins (r : Ref) (session other : Session) : Prop extends session.IsKin other where
  common : Heap.Common (fun s => r ≤ s) session.heap other.heap
  scope : session.scope = .ref r
  also : other.scope = .ref r
  isLocal : session.host.IsLocal

theorem HasNewScope.twins {r : Ref} {other : Session} (new : session.HasNewScope r) (also : other.HasNewScope r)
    (kin : session.IsKin other) (isLocal : session.host.IsLocal) : session.Twins r other := by
  have cells {session : Session} (new : session.HasNewScope r) (s : Ref) (le : r ≤ s) :
      session.heap.cell s = if s = r then .mapping .plain [] else .module [] := by
    split
    · next same => exact same ▸ new.empty
    · next other => exact Heap.cell_outside _ (new.size ▸ Nat.lt_of_le_of_ne le (Ne.symm other))
  refine ⟨kin, ⟨⟨fun s le => ?_, fun s le => ?_⟩, fun s le => ?_, ?_, fun s le => ?_⟩, new.scope, also.scope, isLocal⟩
  · rw [cells new s le]
    split <;> exact List.forall_mem_nil _
  · rw [cells new s le, cells also s le]
  · rw [cells new s le]
    split <;> trivial
  · rw [new.size, also.size]
  · exact Nat.le_of_succ_le (new.size.symm.trans_le le)

namespace Twins

variable {r : Ref} {other : Session} (twins : session.Twins r other)

include twins

theorem compile (line : Text) :
    other.compile line = ((session.compile line).1, (session.compile line).2.1,
      { other with world := (session.compile line).2.2.world }) := by
  unfold Session.compile World.compile World.reserve
  dsimp only
  rw [twins.world, twins.settings, Evaluator.ofSource_congr (a := session.heap)]

theorem computed (line : Text) :
    (other.computed line).1 = (session.computed line).1 ∧
      (∀ value, (session.computed line).1 = .ok value → value.LiesIn fun s => r ≤ s) ∧
      (session.computed line).2.Twins (fun s => r ≤ s) (other.computed line).2 := by
  unfold Session.computed
  rw [twins.compile line]
  rcases Evaluator.ofSource_cases session.heap session.settings.strict session.world.marks line with
    ⟨failure, refused, _⟩ | ⟨evaluator, body, made, regular, _, routineMade⟩
  · rw [compile_of_error refused]
    exact ⟨rfl, nofun, twins.common, rfl⟩
  · rw [compile_of_ok made]
    have tame := Evaluator.areTame_of_made regular routineMade
    have lies : session.scope.LiesIn fun s => r ≤ s := twins.scope ▸ Nat.le_refl r
    have isLocal : Run.IsLocal (fun s => r ≤ s) (·.LiesIn fun s => r ≤ s)
        (evaluator.run session.host .null session.scope) :=
      Routine.isLocal_run twins.isLocal tame trivial lies trivial
    dsimp only
    rw [twins.host, twins.also, ← twins.scope]
    exact isLocal _ _ ⟨twins.common, rfl⟩

theorem continued (line : Text) : (session.continued line).Twins r (other.continued line) where
  common := (twins.computed line).2.2.common
  world := (twins.computed line).2.2.world
  settings := twins.settings
  host := twins.host
  output := twins.output
  scope := twins.scope
  also := twins.also
  isLocal := twins.isLocal

theorem evaluate (line : Text) :
    (other.evaluate line).effects = (session.evaluate line).effects ∧
      (other.evaluate line).escaped = (session.evaluate line).escaped := by
  obtain ⟨same, lies, _⟩ := twins.computed line
  have after := twins.continued line
  have warned : other.warnings line = session.warnings line := by
    unfold warnings
    rw [twins.compile line]
  rw [evaluate_eq, evaluate_eq, same, warned]
  cases ended : (session.computed line).1 with
  | error failure =>
    dsimp only [failed]
    rw [after.settings]
    split <;> exact ⟨rfl, rfl⟩
  | ok value =>
    dsimp only
    rw [after.common.stringify after.common.size (lies value ended)]
    cases (session.continued line).heap.stringify value with
    | error failure => exact ⟨rfl, rfl⟩
    | ok text =>
      dsimp only [printed, say]
      rw [after.output]
      split <;> exact ⟨rfl, rfl⟩

end Twins

end Session

end GuardedExpr

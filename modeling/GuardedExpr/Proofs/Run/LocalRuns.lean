import GuardedExpr.Proofs.Heap.CommonRegions
import GuardedExpr.Proofs.Host.StandardLocality
import GuardedExpr.Proofs.Run.AccountedFailures
import GuardedExpr.Proofs.Run.PairedRuns

/-!
Runs are local. On two heaps with a common region in which the locals and the scope lie, tame code does the same with a
local host: it has the same outcome and changes the region in the same way. So what lies outside the region, which may
be anything, does not matter.
-/

namespace GuardedExpr

variable {σ α β : Type} {region : Ref → Prop} {m n : Machine σ}

structure Machine.Twins (region : Ref → Prop) (m n : Machine σ) : Prop where
  common : Heap.Common region m.heap n.heap
  world : n.world = m.world

theorem Machine.Twins.note (twins : m.Twins region n) (event : Event) : (m.note event).Twins region (n.note event) :=
  ⟨twins.common, twins.world⟩

namespace Run

def IsLocal (region : Ref → Prop) (good : α → Prop) (part : Run σ α) : Prop :=
  ∀ m n, m.Twins region n → (part.run.run n).1 = (part.run.run m).1 ∧
    (∀ value, (part.run.run m).1 = .ok value → good value) ∧ (part.run.run m).2.Twins region (part.run.run n).2

variable {good : α → Prop} {also : β → Prop}

theorem isLocal_pure {value : α} (right : good value) : IsLocal region good (pure value : Run σ α) :=
  fun _ _ twins => ⟨rfl, fun _ same => Except.ok.inj same ▸ right, twins⟩

theorem isLocal_throw (failure : Error) : IsLocal region good (throw failure : Run σ α) :=
  fun _ _ twins => ⟨rfl, nofun, twins⟩

theorem isLocal_bind {part : Run σ α} {next : α → Run σ β} (first : IsLocal region good part)
    (rest : ∀ value, good value → IsLocal region also (next value)) : IsLocal region also (part >>= next) := by
  intro m n twins
  have whole := first m n twins
  rw [ExceptT.run_bind, StateT.run_bind, StateT.run_bind]
  generalize part.run.run m = left at whole ⊢
  generalize part.run.run n = right at whole ⊢
  rcases left with ⟨outcome, left⟩
  rcases right with ⟨result, right⟩
  obtain ⟨same, fine, still⟩ := whole
  dsimp only at same fine still
  subst same
  cases result with
  | ok value => exact rest value (fine value rfl) left right still
  | error failure => exact ⟨rfl, nofun, still⟩

theorem isLocal_ite {condition : Prop} [Decidable condition] {yes no : Run σ α} (onYes : IsLocal region good yes)
    (onNo : IsLocal region good no) : IsLocal region good (if condition then yes else no) := by
  split
  · exact onYes
  · exact onNo

/-- What goes on with the machine goes on alike where it only sees the region. -/
theorem isLocal_get {next : Machine σ → Run σ α}
    (alike : ∀ m n, m.Twins region n → next n = next m ∧ IsLocal region good (next m)) :
    IsLocal region good (get >>= next) := by
  intro m n twins
  obtain ⟨same, isLocal⟩ := alike m n twins
  change ((next n).run.run n).1 = ((next m).run.run m).1 ∧ _ ∧
    ((next m).run.run m).2.Twins region ((next n).run.run n).2
  rw [same]
  exact isLocal m n twins

theorem isLocal_record (event : Event) : IsLocal region (fun _ => True) (record event : Run σ Unit) :=
  fun _ _ twins => ⟨rfl, fun _ _ => trivial, twins.note event⟩

private theorem isLocal_answer {outcome : Except Error α}
    (right : ∀ value, outcome = .ok value → good value) :
    IsLocal region good (answer outcome : Run σ α) := by
  intro m n twins
  rw [run_answer, run_answer]
  exact ⟨rfl, right, twins⟩

theorem isLocal_ask {question : Heap → Except Error α}
    (same : ∀ a b, Heap.Common region a b → question b = question a) :
    IsLocal region (fun _ => True) (ask question : Run σ α) := by
  intro m n twins
  rw [run_ask, run_ask]
  exact ⟨same m.heap n.heap twins.common, fun _ _ => trivial, twins⟩

theorem run_write (event : Event) (container key value : Value) :
    (write event container key value : Run σ Unit).run.run m = match m.heap.setMember container key value with
      | .ok heap => (.ok (), { m.note event with heap })
      | .error failure => (.error failure, m.note event) := by
  have noted : (write event container key value : Run σ Unit).run.run m =
      ((match m.heap.setMember container key value with
        | .ok heap => set { m.note event with heap }
        | .error failure => throw failure) : Run σ Unit).run.run (m.note event) := rfl
  rw [noted]
  cases m.heap.setMember container key value <;> rfl

theorem run_invoke (host : Host σ) (slot : Nat) (callee : Value) (arguments : List Value) :
    (invoke host slot callee arguments).run.run m =
      let result := host.call callee arguments m.heap m.world
      (result.1, ⟨result.2.1, result.2.2, .invoked slot callee arguments :: m.journal⟩) :=
  run_answer _

section Values

variable {container key value v : Value}

theorem isLocal_isTruthy (lies : v.LiesIn region) :
    IsLocal region (fun _ => True) (ask fun h => h.isTruthy v : Run σ Bool) :=
  isLocal_ask fun _ _ common => common.isTruthy common.size lies

theorem isLocal_guarded (lies : v.LiesIn region) : IsLocal region (·.LiesIn region) (guarded v : Run σ Value) :=
  isLocal_bind (isLocal_ask fun _ _ common => common.object common.size lies) fun _ _ => isLocal_pure lies

theorem isLocal_has (lies : v.LiesIn region) (name : Text) :
    IsLocal region (fun _ => True) (has v name : Run σ Bool) := by
  intro m n twins
  rw [run_has, run_has, twins.common.hasMember twins.common.size lies]
  exact ⟨rfl, fun _ _ => trivial, twins.note _⟩

private theorem isLocal_read (lies : container.LiesIn region) (keyLies : key.LiesIn region)
    (selector : Selector) :
    IsLocal region (·.LiesIn region) (read container selector key : Run σ Value) := by
  intro m n twins
  rw [run_read, run_read, twins.common.getMember lies keyLies]
  exact ⟨rfl, fun _ found => twins.common.closed.getMember lies found, twins.note _⟩

theorem isLocal_write (lies : container.LiesIn region) (keyLies : key.LiesIn region) (valueLies : value.LiesIn region)
    (event : Event) : IsLocal region (fun _ => True) (write event container key value : Run σ Unit) := by
  intro m n twins
  have written := twins.common.setMember lies keyLies valueLies
  rw [run_write, run_write]
  generalize m.heap.setMember container key value = first at written ⊢
  generalize n.heap.setMember container key value = second at written ⊢
  cases written with
  | done move => exact ⟨rfl, fun _ _ => trivial, move.common, twins.world⟩
  | failed failure => exact ⟨rfl, nofun, twins.note event⟩

theorem isLocal_alloc {cell : Cell} (lies : cell.LiesIn region) (acts : cell.ActsIn region) :
    IsLocal region (·.LiesIn region) (alloc cell : Run σ Value) := by
  intro m n twins
  refine ⟨congrArg (Except.ok ∘ Value.ref) twins.common.size, ?_, (twins.common.alloc lies acts).common, twins.world⟩
  rintro _ ⟨⟩
  exact twins.common.new

private theorem isLocal_create (lies : container.LiesIn region) (keyLies : key.LiesIn region)
    (selector : Selector) :
    IsLocal region (fun _ => True) (create container selector key : Run σ Unit) :=
  isLocal_bind (isLocal_alloc (List.forall_mem_nil _) trivial) fun _ made => isLocal_write lies keyLies made _

private theorem isLocal_invoke {host : Host σ} (isLocal : host.IsLocal) (slot : Nat)
    {callee : Value} {arguments : List Value}
    (lies : callee.LiesIn region) (lie : ∀ argument ∈ arguments, argument.LiesIn region) :
    IsLocal region (·.LiesIn region) (invoke host slot callee arguments) := by
  intro m n twins
  have calls := isLocal region m.heap n.heap callee arguments m.world twins.common lies lie
  rw [run_invoke, run_invoke, twins.world]
  exact ⟨calls.outcome, calls.value, calls.move.common, calls.world⟩

end Values

end Run

open Run

structure Frame.LiesIn (region : Ref → Prop) (frame : Frame) : Prop where
  locals : frame.locals.LiesIn region
  scope : frame.scope.LiesIn region
  parameter : frame.parameter.LiesIn region
  slots : ∀ value ∈ frame.slots, value.LiesIn region
  result : frame.result.LiesIn region

variable {host : Host σ} {calling : Bool} {slots : Nat} {frame : Frame}

theorem Frame.isLocal_slot (lies : frame.LiesIn region) (index : Nat) :
    IsLocal region (·.LiesIn region) (frame.slot index : Run σ Value) := by
  unfold Frame.slot
  cases present : frame.slots[index]? with
  | none => exact isLocal_throw _
  | some value => exact isLocal_pure (lies.slots value (List.mem_of_getElem? present))

private theorem Frame.isLocal_setSlot (lies : frame.LiesIn region) (index : Nat) {value : Value}
    (new : value.LiesIn region) :
    IsLocal region (Frame.LiesIn region) (frame.setSlot index value : Run σ Frame) := by
  refine isLocal_ite ?_ (isLocal_throw _)
  refine isLocal_bind (isLocal_record _) fun _ _ => isLocal_pure { lies with slots := ?_ }
  intro other member
  rcases List.mem_or_eq_of_mem_set member with old | rfl
  · exact lies.slots other old
  · exact new

theorem Selector.isLocal_key (lies : frame.LiesIn region) (selector : Selector) :
    IsLocal region (·.LiesIn region) (selector.key frame : Run σ Value) := by
  cases selector with
  | name field => exact isLocal_pure trivial
  | slot index => exact frame.isLocal_slot lies index

namespace Code

mutual

theorem isLocal_run (isLocal : host.IsLocal) (lies : frame.LiesIn region) : (code : Code) → code.isTame calling slots →
    IsLocal region (·.LiesIn region) (code.run host frame)
  | .locals, _ => isLocal_pure lies.locals
  | .scope, _ => isLocal_pure lies.scope
  | .parameter, _ => isLocal_pure lies.parameter
  | .literal _ _, scalar => isLocal_pure (Value.liesIn_of_isScalar scalar region)
  | .slot index, _ => frame.isLocal_slot lies index
  | .owner name, _ => isLocal_bind (isLocal_has lies.locals name) fun _ _ =>
      isLocal_ite (isLocal_pure lies.locals) (isLocal_pure lies.scope)
  | .array items, tame => by
    refine isLocal_bind (isLocal_runAll isLocal lies items tame) fun values lie => ?_
    exact isLocal_bind (isLocal_record _) fun _ _ => isLocal_alloc lie trivial
  | .object keys values, tame => by
    obtain ⟨scalar, each⟩ := Bool.and_eq_true_iff.mp tame
    refine isLocal_bind (isLocal_runEntries isLocal lies keys values [] scalar each (List.forall_mem_nil _)) ?_
    exact fun entries lie => isLocal_alloc lie trivial
  | .member container selector, tame => by
    obtain ⟨inner, _⟩ := Bool.and_eq_true_iff.mp tame
    refine isLocal_bind (isLocal_run isLocal lies container inner) fun subject inside => ?_
    exact isLocal_bind (selector.isLocal_key lies) fun key keyInside => isLocal_read inside keyInside selector
  | .guarded code, tame => isLocal_bind (isLocal_run isLocal lies code tame) fun _ inside => isLocal_guarded inside
  | .call callee arguments, tame => by
    obtain ⟨_, each⟩ := Bool.and_eq_true_iff.mp tame
    refine isLocal_bind (frame.isLocal_slot lies callee) fun target inside => ?_
    refine isLocal_bind (isLocal_isTruthy inside) fun truthy _ => isLocal_ite (isLocal_pure trivial) ?_
    refine isLocal_get fun m n twins => ⟨?_, isLocal_ite (isLocal_throw _) ?_⟩
    · dsimp only
      rw [twins.common.isCallable inside, twins.common.describe inside]
    · refine isLocal_bind (isLocal_runAll isLocal lies arguments each) fun values lie => ?_
      exact isLocal_bind (isLocal_invoke isLocal callee inside lie) fun _ given => isLocal_guarded given
  | .store site container selector value, tame => by
    obtain ⟨place, written⟩ := Bool.and_eq_true_iff.mp tame
    obtain ⟨inner, _⟩ := Bool.and_eq_true_iff.mp place
    refine isLocal_bind (isLocal_run isLocal lies container inner) fun subject inside => ?_
    refine isLocal_bind (selector.isLocal_key lies) fun key keyInside => ?_
    refine isLocal_bind (isLocal_run isLocal lies value written) fun stored new => ?_
    exact isLocal_bind (isLocal_write inside keyInside new _) fun _ _ => isLocal_pure new

theorem isLocal_runAll (isLocal : host.IsLocal) (lies : frame.LiesIn region) : (codes : List Code) →
    areTame calling slots codes →
    IsLocal region (fun values => ∀ value ∈ values, value.LiesIn region) (runAll host frame codes)
  | [], _ => isLocal_pure (List.forall_mem_nil _)
  | code :: codes, tame => by
    obtain ⟨first, others⟩ := Bool.and_eq_true_iff.mp tame
    refine isLocal_bind (isLocal_run isLocal lies code first) fun value inside => ?_
    exact isLocal_bind (isLocal_runAll isLocal lies codes others) fun values lie =>
      isLocal_pure (List.forall_mem_cons.mpr ⟨inside, lie⟩)

theorem isLocal_runEntries (isLocal : host.IsLocal) (lies : frame.LiesIn region) :
    (keys : List (Value × Text)) → (codes : List Code) → (entries : Entries) → keys.all (·.1.isScalar) →
    areTame calling slots codes → entries.LieIn region →
    IsLocal region (·.LieIn region) (runEntries host frame keys codes entries)
  | key :: keys, code :: codes, entries, scalar, tame, before => by
    obtain ⟨here, elsewhere⟩ := Bool.and_eq_true_iff.mp scalar
    obtain ⟨first, others⟩ := Bool.and_eq_true_iff.mp tame
    have keyInside := Value.liesIn_of_isScalar here region
    refine isLocal_bind (isLocal_run isLocal lies code first) fun value inside => ?_
    refine isLocal_bind (isLocal_record _) fun _ _ => isLocal_get fun m n twins => ⟨?_, ?_⟩
    · rw [twins.common.key? keyInside]
    · cases m.heap.key? key.1 with
      | none => exact isLocal_throw _
      | some hashed =>
        exact isLocal_runEntries isLocal lies keys codes _ elsewhere others (before.set keyInside inside hashed)
  | [], [], _, _, _, before | [], _ :: _, _, _, _, before | _ :: _, [], _, _, _, before => isLocal_pure before

end

end Code

section Statements

variable (isLocal : host.IsLocal) (lies : frame.LiesIn region)

include isLocal lies

theorem Question.isLocal_run (question : Question) (tame : question.isTame calling slots) :
    IsLocal region (fun _ => True) (question.run host frame) := by
  cases question with
  | has container name =>
    exact isLocal_bind (container.isLocal_run isLocal lies tame) fun _ inside => isLocal_has inside name
  | holds code => exact isLocal_bind (code.isLocal_run isLocal lies tame) fun _ inside => isLocal_isTruthy inside

theorem Condition.isLocal_runAll (conditions : List Condition)
    (tame : conditions.all (·.question.isTame calling slots)) :
    IsLocal region (fun _ => True) (Condition.runAll host frame conditions) := by
  induction conditions with
  | nil => exact isLocal_pure trivial
  | cons condition conditions hypothesis =>
    obtain ⟨first, others⟩ := Bool.and_eq_true_iff.mp tame
    have asked : IsLocal region (fun _ => True) (condition.run host frame) :=
      isLocal_bind (condition.question.isLocal_run isLocal lies first) fun _ _ => isLocal_pure trivial
    exact isLocal_bind asked fun _ _ => isLocal_ite (hypothesis others) (isLocal_pure trivial)

theorem Action.isLocal_run (action : Action) (tame : action.isTame calling slots) :
    IsLocal region (Frame.LiesIn region) (action.run host frame) := by
  cases action with
  | assign slot code =>
    obtain ⟨_, inner⟩ := Bool.and_eq_true_iff.mp tame
    exact isLocal_bind (code.isLocal_run isLocal lies inner) fun _ inside => frame.isLocal_setSlot lies slot inside
  | create container selector =>
    obtain ⟨inner, _⟩ := Bool.and_eq_true_iff.mp tame
    refine isLocal_bind (selector.isLocal_key lies) fun key keyInside => ?_
    refine isLocal_bind (container.isLocal_run isLocal lies inner) fun subject inside => ?_
    exact isLocal_bind (isLocal_create inside keyInside selector) fun _ _ => isLocal_pure lies

theorem Statement.isLocal_run (statement : Statement) (tame : statement.isTame calling slots) :
    IsLocal region (Frame.LiesIn region) (statement.run host frame) := by
  have stays : IsLocal region (Frame.LiesIn region) (pure frame : Run σ Frame) := isLocal_pure lies
  cases statement with
  | perform action => exact action.isLocal_run isLocal lies tame
  | guardedBy conditions action =>
    obtain ⟨asked, done⟩ := Bool.and_eq_true_iff.mp tame
    refine isLocal_bind (Condition.isLocal_runAll isLocal lies conditions asked) fun _ _ => ?_
    exact isLocal_ite (action.isLocal_run isLocal lies done) stays
  | checkObject code =>
    refine isLocal_bind (code.isLocal_run isLocal lies tame) fun _ inside => ?_
    exact isLocal_bind (isLocal_guarded inside) fun _ _ => stays
  | checkName slot =>
    refine isLocal_bind (frame.isLocal_slot lies slot) fun key _ => ?_
    have named : IsLocal region (fun _ => True) (answer (Guard.memberName key) : Run σ Unit) :=
      isLocal_answer fun _ _ => trivial
    exact isLocal_bind named fun _ _ => isLocal_bind (isLocal_record _) fun _ _ => stays
  | checkFunction slot =>
    refine isLocal_bind (frame.isLocal_slot lies slot) fun callee inside => ?_
    refine isLocal_bind (isLocal_ask fun _ _ common => common.function common.size inside) fun _ _ => ?_
    exact isLocal_bind (isLocal_record _) fun _ _ => stays
  | result code =>
    exact isLocal_bind (code.isLocal_run isLocal lies tame) fun _ inside => isLocal_pure { lies with result := inside }

omit lies in
theorem Statement.isLocal_runAll (statements : List Statement) {frame : Frame} (lies : frame.LiesIn region)
    (tame : Statement.areTame calling slots statements) :
    IsLocal region (Frame.LiesIn region) (Statement.runAll host frame statements) := by
  induction statements generalizing frame with
  | nil => exact isLocal_pure lies
  | cons statement statements hypothesis =>
    obtain ⟨first, others⟩ := Bool.and_eq_true_iff.mp tame
    exact isLocal_bind (statement.isLocal_run isLocal lies first) fun _ still => hypothesis still others

end Statements

theorem Routine.isLocal_run (isLocal : host.IsLocal) {routine : Routine} {locals scope parameter : Value}
    (tame : Statement.areTame calling slots routine.statements) (localsLie : locals.LiesIn region)
    (scopeLies : scope.LiesIn region) (parameterLies : parameter.LiesIn region) :
    IsLocal region (·.LiesIn region) (routine.run host locals scope parameter) := by
  have start : (Frame.start locals scope parameter routine.slots).LiesIn region :=
    ⟨localsLie, scopeLies, parameterLies, fun _ member => (List.mem_replicate.mp member).2 ▸ trivial, trivial⟩
  exact isLocal_bind (Statement.isLocal_runAll isLocal routine.statements start tame) fun _ last =>
    isLocal_pure last.result

end GuardedExpr

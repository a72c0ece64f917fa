import GuardedExpr.Proofs.Run.RunPostconditions

/-!
What no run can do, whether its code was checked or not. A run is made of a few primitives; a relation
between machines that each of them stays within, and that holds across several steps if it holds across
each, is one that every run stays within.
-/

namespace GuardedExpr

variable {σ α β : Type}

/-- A relation that the primitives of a run stay within. -/
structure Host.Permits (host : Host σ) (within : Machine σ → Machine σ → Prop) : Prop where
  refl (m : Machine σ) : within m m
  trans {first middle last : Machine σ} : within first middle → within middle last → within first last
  note (m : Machine σ) (event : Event) : within m (m.note event)
  alloc (m : Machine σ) (cell : Cell) : within m { m with heap := (m.heap.alloc cell).2 }
  write (m : Machine σ) {container key value : Value} {heap : Heap} :
    m.heap.setMember container key value = .ok heap → within m { m with heap }
  call (m : Machine σ) (callee : Value) (arguments : List Value) :
    let result := host.call callee arguments m.heap m.world
    within m { m with heap := result.2.1, world := result.2.2 }

def Run.StaysWithin (within : Machine σ → Machine σ → Prop) (part : Run σ α) : Prop :=
  ∀ m, part.Leads m (fun _ last => within m last) (fun _ last => within m last)

variable {host : Host σ} {within : Machine σ → Machine σ → Prop}

namespace Run

theorem StaysWithin.last {part : Run σ α} (stays : part.StaysWithin within) (m : Machine σ) :
    within m (part.run.run m).2 := by
  obtain ⟨onValue, onFailure⟩ := leads_iff.mp (stays m)
  cases done : (part.run.run m).1 with
  | ok value => exact onValue value done
  | error failure => exact onFailure failure done

theorem staysWithin_ite {condition : Prop} [Decidable condition] {yes no : Run σ α}
    (onYes : yes.StaysWithin within) (onNo : no.StaysWithin within) :
    (if condition then yes else no).StaysWithin within := by
  split
  · exact onYes
  · exact onNo

section Parts

variable (permits : host.Permits within)

include permits

theorem staysWithin_pure (value : α) : (pure value : Run σ α).StaysWithin within :=
  fun m => (leads_pure value).mpr (permits.refl m)

theorem staysWithin_throw (failure : Error) : (throw failure : Run σ α).StaysWithin within :=
  fun m => (leads_throw failure).mpr (permits.refl m)

theorem staysWithin_bind {part : Run σ β} {next : β → Run σ α} (first : part.StaysWithin within)
    (rest : ∀ value, (next value).StaysWithin within) : (part >>= next).StaysWithin within := by
  intro m
  refine (leads_bind part next).mpr ((first m).mono (fun value middle step => ?_) fun _ _ step => step)
  exact (rest value middle).mono (fun _ _ further => permits.trans step further)
    fun _ _ further => permits.trans step further

theorem staysWithin_get : (get : Run σ (Machine σ)).StaysWithin within :=
  fun m => leads_get.mpr (permits.refl m)

private theorem staysWithin_answer (outcome : Except Error α) :
    (answer outcome : Run σ α).StaysWithin within :=
  fun m => (leads_answer outcome).mpr ⟨fun _ _ => permits.refl m, fun _ _ => permits.refl m⟩

theorem staysWithin_ask (question : Heap → Except Error α) :
    (ask question : Run σ α).StaysWithin within :=
  fun m => (leads_ask question).mpr ⟨fun _ _ => permits.refl m, fun _ _ => permits.refl m⟩

theorem staysWithin_record (event : Event) : (record event : Run σ Unit).StaysWithin within :=
  fun m => (leads_record event).mpr (permits.note m event)

theorem staysWithin_alloc (cell : Cell) : (alloc cell : Run σ Value).StaysWithin within :=
  fun m => (leads_alloc cell).mpr (permits.alloc m cell)

theorem staysWithin_has (container : Value) (name : Text) :
    (has container name : Run σ Bool).StaysWithin within :=
  fun m => (leads_has container name).mpr ⟨fun _ _ => permits.note m _, fun _ _ => permits.note m _⟩

private theorem staysWithin_read (container : Value) (selector : Selector) (key : Value) :
    (read container selector key : Run σ Value).StaysWithin within :=
  fun m => (leads_read container selector key).mpr
    ⟨fun _ _ => permits.note m _, fun _ _ => permits.note m _⟩

theorem staysWithin_write (event : Event) (container key value : Value) :
    (write event container key value : Run σ Unit).StaysWithin within :=
  fun m => (leads_write event container key value).mpr
    ⟨fun _ written => permits.trans (permits.note m event) (permits.write _ written),
      fun _ _ => permits.note m event⟩

private theorem staysWithin_create (container : Value) (selector : Selector) (key : Value) :
    (create container selector key : Run σ Unit).StaysWithin within :=
  staysWithin_bind permits (staysWithin_alloc permits _) fun _ => staysWithin_write permits _ _ _ _

private theorem staysWithin_invoke (slot : Nat) (callee : Value) (arguments : List Value) :
    (invoke host slot callee arguments).StaysWithin within := by
  intro m
  have called := permits.trans (permits.note m (.invoked slot callee arguments))
    (permits.call _ callee arguments)
  exact (leads_invoke host slot callee arguments).mpr ⟨fun _ _ => called, fun _ _ => called⟩

theorem staysWithin_guarded (value : Value) : (guarded value : Run σ Value).StaysWithin within :=
  staysWithin_bind permits (staysWithin_ask permits _) fun _ => staysWithin_pure permits value

end Parts

end Run

open Run

theorem Frame.staysWithin_slot (permits : host.Permits within) (frame : Frame) (index : Nat) :
    (frame.slot index : Run σ Value).StaysWithin within := by
  unfold Frame.slot
  split
  · exact staysWithin_pure permits _
  · exact staysWithin_throw permits _

private theorem Frame.staysWithin_setSlot (permits : host.Permits within) (frame : Frame)
    (index : Nat)
    (value : Value) : (frame.setSlot index value : Run σ Frame).StaysWithin within :=
  staysWithin_ite
    (staysWithin_bind permits (staysWithin_record permits _) fun _ => staysWithin_pure permits _)
    (staysWithin_throw permits _)

theorem Selector.staysWithin_key (permits : host.Permits within) (frame : Frame) (selector : Selector) :
    (selector.key frame : Run σ Value).StaysWithin within := by
  cases selector with
  | name field => exact staysWithin_pure permits _
  | slot index => exact frame.staysWithin_slot permits index

namespace Code

mutual

theorem staysWithin_run (permits : host.Permits within) (frame : Frame) :
    (code : Code) → (code.run host frame).StaysWithin within
  | .locals => staysWithin_pure permits _
  | .scope => staysWithin_pure permits _
  | .parameter => staysWithin_pure permits _
  | .literal _ _ => staysWithin_pure permits _
  | .slot index => frame.staysWithin_slot permits index
  | .owner name => by
    apply staysWithin_bind permits (staysWithin_has permits _ name)
    intro found
    exact staysWithin_ite (staysWithin_pure permits _) (staysWithin_pure permits _)
  | .array items => by
    apply staysWithin_bind permits (staysWithin_runAll permits frame items)
    intro values
    exact staysWithin_bind permits (staysWithin_record permits _) fun _ => staysWithin_alloc permits _
  | .object keys values => by
    apply staysWithin_bind permits (staysWithin_runEntries permits frame keys values [])
    intro _
    exact staysWithin_alloc permits _
  | .member container selector => by
    apply staysWithin_bind permits (staysWithin_run permits frame container)
    intro subject
    apply staysWithin_bind permits (selector.staysWithin_key permits frame)
    intro key
    exact staysWithin_read permits subject selector key
  | .guarded code => by
    apply staysWithin_bind permits (staysWithin_run permits frame code)
    intro value
    exact staysWithin_guarded permits value
  | .call callee arguments => by
    apply staysWithin_bind permits (frame.staysWithin_slot permits callee)
    intro target
    apply staysWithin_bind permits (staysWithin_ask permits _)
    intro truthy
    refine staysWithin_ite (staysWithin_pure permits _) ?_
    apply staysWithin_bind permits (staysWithin_get permits)
    intro m
    have rest : (do
        let values ← runAll host frame arguments
        Run.guarded (← invoke host callee target values) : Run σ Value).StaysWithin within := by
      apply staysWithin_bind permits (staysWithin_runAll permits frame arguments)
      intro values
      apply staysWithin_bind permits (staysWithin_invoke permits callee target values)
      intro value
      exact staysWithin_guarded permits value
    refine staysWithin_ite ?_ rest
    exact staysWithin_bind permits (staysWithin_throw permits _) fun _ => rest
  | .store site container selector value => by
    apply staysWithin_bind permits (staysWithin_run permits frame container)
    intro subject
    apply staysWithin_bind permits (selector.staysWithin_key permits frame)
    intro key
    apply staysWithin_bind permits (staysWithin_run permits frame value)
    intro stored
    apply staysWithin_bind permits (staysWithin_write permits _ subject key stored)
    intro _
    exact staysWithin_pure permits stored

theorem staysWithin_runAll (permits : host.Permits within) (frame : Frame) :
    (codes : List Code) → (runAll host frame codes).StaysWithin within
  | [] => staysWithin_pure permits _
  | code :: codes => by
    apply staysWithin_bind permits (staysWithin_run permits frame code)
    intro value
    apply staysWithin_bind permits (staysWithin_runAll permits frame codes)
    intro values
    exact staysWithin_pure permits _

theorem staysWithin_runEntries (permits : host.Permits within) (frame : Frame) :
    (keys : List (Value × Text)) → (codes : List Code) → (entries : Entries) →
      (runEntries host frame keys codes entries).StaysWithin within
  | [], _, _ => by
    unfold runEntries
    exact staysWithin_pure permits _
  | _ :: _, [], _ => by
    unfold runEntries
    exact staysWithin_pure permits _
  | key :: keys, code :: codes, entries => by
    apply staysWithin_bind permits (staysWithin_run permits frame code)
    intro value
    apply staysWithin_bind permits (staysWithin_record permits _)
    intro _
    apply staysWithin_bind permits (staysWithin_get permits)
    intro m
    split
    · exact staysWithin_runEntries permits frame keys codes _
    · exact staysWithin_throw permits _

end

end Code

section Statements

variable (permits : host.Permits within)

include permits

theorem Question.staysWithin_run (frame : Frame) (question : Question) :
    (question.run host frame).StaysWithin within := by
  cases question with
  | has container name =>
    apply staysWithin_bind permits (container.staysWithin_run permits frame)
    intro subject
    exact staysWithin_has permits subject name
  | holds code =>
    apply staysWithin_bind permits (code.staysWithin_run permits frame)
    intro value
    exact staysWithin_ask permits _

theorem Condition.staysWithin_runAll (frame : Frame) (conditions : List Condition) :
    (Condition.runAll host frame conditions).StaysWithin within := by
  induction conditions with
  | nil => exact staysWithin_pure permits _
  | cons condition conditions hypothesis =>
    have first : (condition.run host frame).StaysWithin within :=
      staysWithin_bind permits (condition.question.staysWithin_run permits frame)
        fun _ => staysWithin_pure permits _
    refine staysWithin_bind permits first fun holds => ?_
    exact staysWithin_ite hypothesis (staysWithin_pure permits _)

theorem Action.staysWithin_run (frame : Frame) (action : Action) :
    (action.run host frame).StaysWithin within := by
  cases action with
  | assign slot code =>
    apply staysWithin_bind permits (code.staysWithin_run permits frame)
    intro value
    exact frame.staysWithin_setSlot permits slot value
  | create container selector =>
    apply staysWithin_bind permits (selector.staysWithin_key permits frame)
    intro key
    apply staysWithin_bind permits (container.staysWithin_run permits frame)
    intro subject
    apply staysWithin_bind permits (staysWithin_create permits subject selector key)
    intro _
    exact staysWithin_pure permits frame

theorem Statement.staysWithin_run (frame : Frame) (statement : Statement) :
    (statement.run host frame).StaysWithin within := by
  cases statement with
  | perform action => exact action.staysWithin_run permits frame
  | guardedBy conditions action =>
    apply staysWithin_bind permits (Condition.staysWithin_runAll permits frame conditions)
    intro hold
    exact staysWithin_ite (action.staysWithin_run permits frame) (staysWithin_pure permits frame)
  | checkObject code =>
    apply staysWithin_bind permits (code.staysWithin_run permits frame)
    intro value
    apply staysWithin_bind permits (staysWithin_guarded permits value)
    intro _
    exact staysWithin_pure permits frame
  | checkName slot =>
    apply staysWithin_bind permits (frame.staysWithin_slot permits slot)
    intro key
    apply staysWithin_bind permits (staysWithin_answer permits _)
    intro _
    exact staysWithin_bind permits (staysWithin_record permits _) fun _ => staysWithin_pure permits frame
  | checkFunction slot =>
    apply staysWithin_bind permits (frame.staysWithin_slot permits slot)
    intro callee
    apply staysWithin_bind permits (staysWithin_ask permits _)
    intro _
    exact staysWithin_bind permits (staysWithin_record permits _) fun _ => staysWithin_pure permits frame
  | result code =>
    apply staysWithin_bind permits (code.staysWithin_run permits frame)
    intro value
    exact staysWithin_pure permits _

theorem Statement.staysWithin_runAll (frame : Frame) (statements : List Statement) :
    (Statement.runAll host frame statements).StaysWithin within := by
  induction statements generalizing frame with
  | nil => exact staysWithin_pure permits frame
  | cons statement statements hypothesis =>
    exact staysWithin_bind permits (statement.staysWithin_run permits frame) hypothesis

/-- Every run of a routine stays within what its primitives and the host stay within. -/
theorem Routine.staysWithin_run (routine : Routine) (locals scope parameter : Value) :
    (routine.run host locals scope parameter).StaysWithin within :=
  staysWithin_bind permits (Statement.staysWithin_runAll permits _ routine.statements)
    fun _ => staysWithin_pure permits _

end Statements

end GuardedExpr

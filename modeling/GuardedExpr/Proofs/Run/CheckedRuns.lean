import GuardedExpr.Proofs.Run.OrderlyRuns

/-!
Runs of checked code. A piece of inline code that passes the check continues the frame soundly, a statement
takes what is known before it to what is known after it, and so a routine that passes the check leaves a
sound machine behind, whether it ends or fails.
-/

namespace GuardedExpr

variable {σ : Type} {host : Host σ} {fit : Heap → Value → Prop} {known : Standings} {frame : Frame}
  {m : Machine σ}

namespace Code

abbrev RunsSoundly (host : Host σ) (fit : Heap → Value → Prop) (known : Standings) (frame : Frame) (m : Machine σ)
    (code : Code) : Prop :=
  (code.run host frame).Leads m
    (fun value last => frame.Continues fit known m last ∧ (code.isFit known → fit last.heap value))
    (fun _ last => last.Sound fit)

abbrev AllRunSoundly (host : Host σ) (fit : Heap → Value → Prop) (known : Standings) (frame : Frame) (m : Machine σ)
    (codes : List Code) : Prop :=
  (runAll host frame codes).Leads m
    (fun values last => frame.Continues fit known m last ∧ ∀ value ∈ values, fit last.heap value)
    (fun _ last => last.Sound fit)

private theorem member_runsSoundly {container : Code} {selector : Selector}
    (inner : container.RunsSoundly host fit known frame m) (isFit : container.isFit known)
    (named : selector.isProper known) : (Code.member container selector).RunsSoundly host fit known frame m := by
  apply Run.Leads.bind inner
  intro subject middle reached
  obtain ⟨step, good⟩ := reached
  apply Run.Leads.bind (leads_key_sound step.sound named)
  intro key last reached
  obtain ⟨same, presents⟩ := reached
  subst same
  apply Run.Leads.imp (leads_read_sound step.sound (good isFit) presents)
  intro value last rest
  exact ⟨step.trans rest, fun isFit => by cases isFit⟩

/-- The key is still the one that was checked when the value has been evaluated. -/
theorem store_runsSoundly (fitness : Fitness host fit) {site : Nat} {container value : Code} {selector : Selector}
    (inner : container.RunsSoundly host fit known frame m) (isFit : container.isFit known)
    (named : selector.isProper known)
    (whole : ∀ {m : Machine σ}, frame.Sound fit known m → value.RunsSoundly host fit known frame m)
    (valueFit : value.isFit known) :
    (Code.store site container selector value).RunsSoundly host fit known frame m := by
  apply Run.Leads.bind inner
  intro subject middle reached
  obtain ⟨step, good⟩ := reached
  apply Run.Leads.bind (leads_key_sound step.sound named)
  intro key same reached
  obtain ⟨unchanged, presents⟩ := reached
  subst unchanged
  apply Run.Leads.bind (whole step.sound)
  intro stored later reached
  obtain ⟨second, storedGood⟩ := reached
  have follows : (Event.stored site subject selector key stored).Follows later.journal :=
    presents.mono second.grown
  have objects : ∀ used ∈ (Event.stored site subject selector key stored).objects, fit later.heap used := by
    simpa [Event.objects] using ⟨second.later _ (good isFit), storedGood valueFit⟩
  apply Run.Leads.bind (leads_write_sound fitness second.sound rfl follows objects)
  intro _ last third
  exact ⟨(step.trans second).trans third, fun _ => third.later _ (storedGood valueFit)⟩

private theorem call_runsSoundly (fitness : Fitness host fit) (sound : frame.Sound fit known m)
    {callee : Nat}
    {arguments : List Code} (checked : known callee = .callee)
    (handed : AllRunSoundly host fit known frame m arguments) :
    (Code.call callee arguments).RunsSoundly host fit known frame m := by
  apply Run.Leads.bind (leads_slot_sound sound callee)
  intro target same reached
  obtain ⟨unchanged, _, holds⟩ := reached
  subst unchanged
  rw [checked] at holds
  obtain ⟨_, same, admitted⟩ := holds
  cases same
  refine (Run.leads_bind _ _).mpr ((Run.leads_ask _).mpr ⟨fun truthy _ => ?_, fun _ _ => sound.toSound⟩)
  cases truthy with
  | false => exact ⟨sound.continues, fun _ => fitness.scalar rfl⟩
  | true =>
    refine (Run.leads_bind _ _).mpr (Run.leads_get.mpr ((Run.leads_ite _ _ _).mpr ?_))
    split
    · exact sound.toSound
    · apply Run.Leads.bind handed
      intro values middle reached
      obtain ⟨step, good⟩ := reached
      apply Run.Leads.bind (leads_invoke_sound fitness step.sound (step.grown _ admitted) good)
      intro value last rest
      apply Run.Leads.imp (leads_guarded_sound fitness rest.sound value)
      intro passed last reached
      obtain ⟨rfl, rfl, passedFit⟩ := reached
      exact ⟨step.trans rest, fun _ => passedFit⟩

mutual

theorem leads_run_sound (fitness : Fitness host fit) {m : Machine σ} (sound : frame.Sound fit known m) :
    (code : Code) → code.isProper known → code.RunsSoundly host fit known frame m
  | .locals, _ => ⟨sound.continues, fun _ => sound.locals⟩
  | .scope, _ => ⟨sound.continues, fun _ => sound.scope⟩
  | .parameter, _ => ⟨sound.continues, fun isFit => by cases isFit⟩
  | .literal _ _, _ => ⟨sound.continues, fitness.scalar⟩
  | .slot index, _ => by
    apply Run.Leads.imp (leads_slot_sound sound index)
    intro value last reached
    obtain ⟨rfl, _, holds⟩ := reached
    exact ⟨sound.continues, holds.fits⟩
  | .owner name, safe => by
    apply Run.Leads.bind (leads_has_sound sound sound.locals safe)
    intro found last step
    cases found with
    | true => exact ⟨step, fun _ => step.sound.locals⟩
    | false => exact ⟨step, fun _ => step.sound.scope⟩
  | .guarded code, proper => by
    apply Run.Leads.bind (leads_run_sound fitness sound code proper)
    intro value middle reached
    obtain ⟨step, _⟩ := reached
    apply Run.Leads.imp (leads_guarded_sound fitness step.sound value)
    intro passed last reached
    obtain ⟨rfl, rfl, good⟩ := reached
    exact ⟨step, fun _ => good⟩
  | .member container selector, proper => by
    simp only [isProper, Bool.and_eq_true] at proper
    obtain ⟨⟨inner, isFit⟩, named⟩ := proper
    exact member_runsSoundly (leads_run_sound fitness sound container inner) isFit named
  | .store site container selector value, proper => by
    simp only [isProper, Bool.and_eq_true] at proper
    obtain ⟨⟨⟨⟨inner, isFit⟩, named⟩, whole⟩, valueFit⟩ := proper
    exact store_runsSoundly fitness (leads_run_sound fitness sound container inner) isFit named
      (fun sound => leads_run_sound fitness sound value whole) valueFit
  | .array items, proper => by
    apply Run.Leads.bind (leads_runAll_sound fitness sound items proper)
    intro values middle reached
    obtain ⟨step, good⟩ := reached
    have noted := step.sound.note (.built values) rfl trivial good
    rw [Run.leads_bind, Run.leads_record]
    apply Run.Leads.imp (leads_alloc_sound fitness noted.sound _ fitness.list)
    intro value last rest
    exact ⟨(step.trans noted).trans rest.1, fun _ => rest.2⟩
  | .object keys values, proper => by
    apply Run.Leads.bind (leads_runEntries_sound fitness sound keys values [] proper)
    intro entries middle step
    apply Run.Leads.imp (leads_alloc_sound fitness step.sound _ fitness.mapping)
    intro value last rest
    exact ⟨step.trans rest.1, fun _ => rest.2⟩
  | .call callee arguments, proper => by
    simp only [isProper, Bool.and_eq_true, decide_eq_true_eq] at proper
    obtain ⟨checked, proper⟩ := proper
    exact call_runsSoundly fitness sound checked (leads_runAll_sound fitness sound arguments proper)

theorem leads_runAll_sound (fitness : Fitness host fit) {m : Machine σ} (sound : frame.Sound fit known m) :
    (codes : List Code) → areProper known codes → AllRunSoundly host fit known frame m codes
  | [], _ => ⟨sound.continues, by simp⟩
  | code :: codes, proper => by
    simp only [areProper, Bool.and_eq_true] at proper
    obtain ⟨⟨first, isFit⟩, others⟩ := proper
    apply Run.Leads.bind (leads_run_sound fitness sound code first)
    intro value middle reached
    obtain ⟨step, good⟩ := reached
    apply Run.Leads.bind (leads_runAll_sound fitness step.sound codes others)
    intro values last reached
    obtain ⟨rest, all⟩ := reached
    refine ⟨step.trans rest, ?_⟩
    intro used member
    rcases List.mem_cons.mp member with rfl | member
    · exact rest.later _ (good isFit)
    · exact all used member

theorem leads_runEntries_sound (fitness : Fitness host fit) {m : Machine σ}
    (sound : frame.Sound fit known m) :
    (keys : List (Value × Text)) → (codes : List Code) → (entries : Entries) →
      areProper known codes →
      (runEntries host frame keys codes entries).Leads m
        (fun _ last => frame.Continues fit known m last) (fun _ last => last.Sound fit)
  | [], _, _, _ => by
    simp only [runEntries, Run.leads_pure]
    exact sound.continues
  | _ :: _, [], _, _ => by
    simp only [runEntries, Run.leads_pure]
    exact sound.continues
  | key :: keys, code :: codes, entries, proper => by
    simp only [areProper, Bool.and_eq_true] at proper
    obtain ⟨⟨first, isFit⟩, others⟩ := proper
    apply Run.Leads.bind (leads_run_sound fitness sound code first)
    intro value middle reached
    obtain ⟨step, good⟩ := reached
    have noted := step.sound.note (.built [value]) rfl trivial
      (by simpa [Event.objects] using good isFit)
    rw [Run.leads_bind, Run.leads_record]
    rw [Run.leads_bind, Run.leads_get]
    split
    · next hashed _ =>
      apply Run.Leads.imp (leads_runEntries_sound fitness noted.sound keys codes _ others)
      intro _ last rest
      exact (step.trans noted).trans rest
    · exact noted.sound.toSound

end

end Code

section Statements

variable (fitness : Fitness host fit) (sound : frame.Sound fit known m)

include fitness sound

theorem Question.leads_run_sound (question : Question) (proper : question.isProper known) :
    (question.run host frame).Leads m (fun _ last => frame.Continues fit known m last)
      (fun _ last => last.Sound fit) := by
  cases question with
  | has container name =>
    simp only [Question.isProper, Bool.and_eq_true] at proper
    obtain ⟨⟨inner, isFit⟩, safe⟩ := proper
    apply Run.Leads.bind (container.leads_run_sound fitness sound inner)
    intro subject middle reached
    obtain ⟨step, good⟩ := reached
    exact (leads_has_sound step.sound (good isFit) safe).imp fun _ _ rest => step.trans rest
  | holds code =>
    apply Run.Leads.bind (code.leads_run_sound fitness sound proper)
    intro value middle reached
    obtain ⟨step, _⟩ := reached
    exact (Run.leads_ask _).mpr ⟨fun _ _ => step, fun _ _ => step.sound.toSound⟩

omit sound in
theorem Condition.leads_runAll_sound {m : Machine σ} (sound : frame.Sound fit known m)
    (conditions : List Condition) (proper : conditions.all (·.question.isProper known)) :
    (Condition.runAll host frame conditions).Leads m (fun _ last => frame.Continues fit known m last)
      (fun _ last => last.Sound fit) := by
  induction conditions generalizing m with
  | nil => exact sound.continues
  | cons condition conditions hypothesis =>
    simp only [List.all_cons, Bool.and_eq_true] at proper
    have first : (condition.run host frame).Leads m (fun _ last => frame.Continues fit known m last)
        (fun _ last => last.Sound fit) :=
      (condition.question.leads_run_sound fitness sound proper.1).bind fun _ _ step => step
    apply Run.Leads.bind first
    intro holds middle step
    cases holds with
    | true =>
      exact (hypothesis step.sound proper.2).imp fun _ _ rest => step.trans rest
    | false => exact step

theorem leads_create_at_sound {container : Code} {selector : Selector} (inner : container.isProper known)
    (isFit : container.isFit known) (named : selector.isProper known) :
    ((Action.create container selector).run host frame).Leads m
      (fun after last => after.Sound fit known last) (fun _ last => last.Sound fit) := by
  apply Run.Leads.bind (leads_key_sound sound named)
  intro key same reached
  obtain ⟨unchanged, presents⟩ := reached
  subst unchanged
  apply Run.Leads.bind (container.leads_run_sound fitness sound inner)
  intro subject middle reached
  obtain ⟨step, good⟩ := reached
  apply Run.Leads.bind (leads_create_sound fitness step.sound (good isFit) (presents.mono step.grown))
  intro _ last rest
  exact rest.sound

/-- A slot that has not been checked is filled, and has the given standing then. -/
theorem leads_assign_sound {slot : Nat} {code : Code} (isOpen : (known slot).isOpen)
    (proper : code.isProper known) {standing : Standing}
    (holds : ∀ (value : Value) (last : Machine σ),
      (known slot).Holds (fit last.heap) last.journal slot frame.slots[slot]? →
        (code.isFit known → fit last.heap value) →
          standing.Holds (fit last.heap) (.kept slot value :: last.journal) slot (some value)) :
    ((Action.assign slot code).run host frame).Leads m
      (fun after last => after.Sound fit (Function.update known slot standing) last)
      (fun _ last => last.Sound fit) := by
  apply Run.Leads.bind (code.leads_run_sound fitness sound proper)
  intro value middle reached
  obtain ⟨step, good⟩ := reached
  have before := step.sound.slots slot
  unfold Frame.setSlot
  rw [Run.leads_ite]
  split
  · next inside =>
    rw [Run.leads_bind, Run.leads_record]
    refine step.sound.noteSlot rfl (before.unchecked isOpen) rfl ⟨rfl, rfl, rfl⟩ ?_ ?_
    · intro other different
      exact List.getElem?_set_ne (Ne.symm different)
    · rw [List.getElem?_set_self inside]
      exact holds value middle before good
  · exact step.sound.toSound

omit fitness in
/-- What a slot holds is found fit for a use, and the event tells so. -/
theorem leads_checked_sound {slot : Nat} (isFilled : (known slot).isFilled) {standing : Standing}
    (event : Value → Event) (check : Value → Run σ Unit) {accepts : Value → Prop}
    (checks : ∀ value, (check value).Leads m (fun _ last => last = m ∧ accepts value)
      (fun _ last => last = m))
    (about : ∀ value, (event value).slot? = some slot) (objects : ∀ value, (event value).objects = [])
    (follows : ∀ value past, Event.keptIn slot past = [value] → Event.Unchecked slot past →
      accepts value → (event value).Follows past)
    (holds : ∀ value, standing.Holds (fit m.heap) (event value :: m.journal) slot (some value)) :
    (do
      let value ← frame.slot slot
      check value
      Run.record (event value)
      return frame : Run σ Frame).Leads m
      (fun after last => after.Sound fit (Function.update known slot standing) last)
      (fun _ last => last.Sound fit) := by
  apply Run.Leads.bind (leads_slot_sound sound slot)
  intro value same reached
  obtain ⟨unchanged, held, before⟩ := reached
  subst unchanged
  have checked := (checks value).mono (fun _ _ passed => passed) fun _ last (failed : last = _) =>
    show last.Sound fit from failed ▸ sound.toSound
  apply Run.Leads.bind checked
  intro _ same reached
  obtain ⟨unchanged, accepted⟩ := reached
  subst unchanged
  rw [Run.leads_bind, Run.leads_record]
  cases standing : known slot with
  | filled isFit =>
    rw [standing] at before
    obtain ⟨_, same, once, unchecked, _⟩ := before
    cases same
    refine sound.noteSlot (about value) (follows value _ once unchecked accepted) (objects value)
      ⟨rfl, rfl, rfl⟩ (fun _ _ => rfl) ?_
    rw [held]
    exact holds value
  | _ => simp [standing, Standing.isFilled] at isFilled

/-- A slot that may have been filled more than once is fit after the guard has passed it. -/
theorem leads_checkObject_slot_sound {slot : Nat} (loose : known slot = .loose) :
    ((Statement.checkObject (.slot slot)).run host frame).Leads m
      (fun after last => after.Sound fit (Function.update known slot .object) last)
      (fun _ last => last.Sound fit) := by
  apply Run.Leads.bind (leads_slot_sound sound slot)
  intro value same reached
  obtain ⟨unchanged, held, before⟩ := reached
  subst unchanged
  apply Run.Leads.bind (leads_guarded_sound fitness sound value)
  intro passed last reached
  obtain ⟨unchanged, same, good⟩ := reached
  subst unchanged same
  apply sound.relabel
  rw [loose] at before
  rw [held]
  exact ⟨before, fun other same => Option.some.inj same ▸ good⟩

private theorem leads_checkObject_sound {code : Code} (proper : code.isProper known) :
    ((Statement.checkObject code).run host frame).Leads m (fun after last => after.Sound fit known last)
      (fun _ last => last.Sound fit) := by
  apply Run.Leads.bind (code.leads_run_sound fitness sound proper)
  intro value middle reached
  obtain ⟨step, _⟩ := reached
  apply Run.Leads.bind (leads_guarded_sound fitness step.sound value)
  intro passed last reached
  obtain ⟨unchanged, _, _⟩ := reached
  subst unchanged
  exact step.sound

theorem Statement.leads_run_sound (statement : Statement) (proper : statement.isProper known) :
    (statement.run host frame).Leads m
      (fun after last => after.Sound fit (statement.after known) last) (fun _ last => last.Sound fit) := by
  cases statement with
  | perform action =>
    cases action with
    | assign slot code =>
      simp only [isProper, Bool.and_eq_true, decide_eq_true_eq] at proper
      obtain ⟨empty, inner⟩ := proper
      refine leads_assign_sound fitness sound (by simp [empty, Standing.isOpen]) inner ?_
      intro value last before good
      rw [empty] at before
      refine ⟨value, rfl, ?_, before.2.1.kept value, good⟩
      rw [Event.keptIn_kept, before.1]
    | create container selector =>
      simp only [isProper, Bool.and_eq_true] at proper
      exact leads_create_at_sound fitness sound proper.1.1 proper.1.2 proper.2
  | guardedBy conditions action =>
    cases action with
    | assign slot code =>
      simp only [isProper, Bool.and_eq_true] at proper
      obtain ⟨⟨asked, isOpen⟩, inner⟩ := proper
      apply Run.Leads.bind (Condition.leads_runAll_sound fitness sound conditions asked)
      intro hold middle step
      cases hold with
      | true =>
        refine leads_assign_sound fitness step.sound isOpen inner ?_
        intro value last before good
        exact Standing.holds_refilled ((before.unchecked isOpen).kept value) good
      | false =>
        exact step.sound.relabel ((step.sound.slots slot).refilled isOpen (fitness.scalar rfl) _)
    | create container selector =>
      simp only [isProper, Bool.and_eq_true] at proper
      obtain ⟨⟨⟨asked, inner⟩, isFit⟩, named⟩ := proper
      apply Run.Leads.bind (Condition.leads_runAll_sound fitness sound conditions asked)
      intro hold middle step
      cases hold with
      | true => exact leads_create_at_sound fitness step.sound inner isFit named
      | false => exact step.sound
  | checkObject code =>
    have unmarked := leads_checkObject_sound fitness sound proper
    cases code with
    | slot slot =>
      by_cases loose : known slot = .loose
      · simp only [after, loose, if_true]
        exact leads_checkObject_slot_sound fitness sound loose
      · simp only [after, loose, if_false]
        exact unmarked
    | _ => exact unmarked
  | checkName slot =>
    refine leads_checked_sound sound proper (.cleared slot)
      (fun key => Run.answer (Guard.memberName key)) (fun value => ?_)
      (fun _ => rfl) (fun _ => rfl)
      (fun value past once unchecked accepted => ⟨once, unchecked, accepted⟩)
      fun value => ⟨value, rfl, List.mem_cons_self⟩
    exact (Run.leads_answer _).mpr ⟨fun _ passed => ⟨rfl, passed⟩, fun _ _ => rfl⟩
  | checkFunction slot =>
    refine leads_checked_sound sound proper (.admitted slot)
      (fun callee => Run.ask fun h => Guard.function h callee) (fun value => ?_)
      (fun _ => rfl) (fun _ => rfl)
      (fun value past once unchecked accepted => ⟨once, unchecked, accepted⟩)
      fun value => ⟨value, rfl, List.mem_cons_self⟩
    exact (Run.leads_ask _).mpr
      ⟨fun _ passed => ⟨rfl, Guard.isAdmissible_of_function passed⟩, fun _ _ => rfl⟩
  | result code =>
    simp only [isProper, Bool.and_eq_true] at proper
    apply Run.Leads.bind (code.leads_run_sound fitness sound proper.1)
    intro value last reached
    obtain ⟨step, good⟩ := reached
    exact { step.sound with result := good proper.2 }

omit sound in
theorem Statement.leads_runAll_sound {known : Standings} {frame : Frame} {m : Machine σ}
    (sound : frame.Sound fit known m) (statements : List Statement)
    (proper : Statement.areProper known statements) :
    (Statement.runAll host frame statements).Leads m
      (fun after last => after.Sound fit (Statement.afterAll known statements) last)
      (fun _ last => last.Sound fit) := by
  induction statements generalizing known frame m with
  | nil => exact sound
  | cons statement statements hypothesis =>
    simp only [areProper, Bool.and_eq_true] at proper
    exact (statement.leads_run_sound fitness sound proper.1).bind
      fun _ _ first => hypothesis first proper.2

end Statements

theorem Frame.sound_start (fitness : Fitness host fit) (unused : m.journal = []) {locals scope : Value}
    (localsFit : fit m.heap locals) (scopeFit : fit m.heap scope) (parameter : Value) (slots : Nat) :
    (Frame.start locals scope parameter slots).Sound fit (fun _ => .empty) m where
  orderly := by simp [unused, Event.Orderly]
  objects := by simp [unused]
  locals := localsFit
  scope := scopeFit
  result := fitness.scalar rfl
  slots := by
    intro slot
    refine ⟨by simp [unused, Event.keptIn], by simp [unused, Event.Unchecked], ?_⟩
    intro value held
    exact (List.mem_replicate.mp (List.mem_of_getElem? held)).2

/-- A routine that passes the check runs soundly on locals and a scope that are fit, from any heap and any
state of the host on, and its value is fit. -/
theorem Routine.leads_run_sound (fitness : Fitness host fit) {routine : Routine}
    (proper : routine.isProper) (m : Machine σ) (unused : m.journal = []) {locals scope : Value}
    (localsFit : fit m.heap locals) (scopeFit : fit m.heap scope) (parameter : Value) :
    (routine.run host locals scope parameter).Leads m
      (fun value last => last.Sound fit ∧ fit last.heap value) (fun _ last => last.Sound fit) := by
  have start := Frame.sound_start fitness unused localsFit scopeFit parameter routine.slots
  exact (Statement.leads_runAll_sound fitness start routine.statements proper).bind
    fun _ _ last => ⟨last.toSound, last.result⟩

end GuardedExpr

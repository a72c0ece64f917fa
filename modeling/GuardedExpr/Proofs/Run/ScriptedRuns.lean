import GuardedExpr.Proofs.Code.DeedScripts
import GuardedExpr.Proofs.Run.RunConfinement

/-!
Runs follow scripts. Each primitive of a run does one deed or none; code does what its parts do, one after the
other; and the arguments of a call are reached only through its gate. The induction is on the code, and then
on the statements, between which it is known what has been admitted to which slot.
-/

namespace GuardedExpr

variable {σ α β : Type} {host : Host σ} {start m last : Machine σ} {known : Standings} {frame : Frame}

structure Frame.Reached (host : Host σ) (start : Machine σ) (known : Standings) (frame : Frame)
    (m : Machine σ) : Prop where
  comes : start.Comes host m
  admits : ∀ slot, known slot = .callee →
    ∃ callee, frame.slots[slot]? = some callee ∧ .admitted slot callee ∈ m.journal

theorem Frame.Reached.later (reached : frame.Reached host start known m) (comes : m.Comes host last) :
    frame.Reached host start known last where
  comes := reached.comes.trans comes
  admits := by
    intro slot isCallee
    obtain ⟨callee, held, admitted⟩ := reached.admits slot isCallee
    exact ⟨callee, held, comes.older.subset admitted⟩

theorem Frame.Sound.reached {fit : Heap → Value → Prop} (sound : frame.Sound fit known m)
    (comes : start.Comes host m) : frame.Reached host start known m where
  comes := comes
  admits := by
    intro slot isCallee
    have holds := sound.slots slot
    rw [isCallee] at holds
    exact holds

namespace Run

variable {part : Run σ β} {next : β → Run σ α} {script rest : List Duty}

theorem Follows.mono (follows : part.Follows host start script m) (sub : script.Sublist rest) :
    part.Follows host start rest m :=
  Leads.mono follows (fun _ _ done => done.mono sub) fun _ _ done => done.mono sub

theorem Follows.bind (first : part.Follows host start script m)
    (later : ∀ value middle, m.Comes host middle → (next value).Follows host start rest middle) :
    (part >>= next).Follows host start (script ++ rest) m := by
  refine (leads_bind _ _).mpr (Leads.mono first ?_ ?_)
  · intro value middle step
    exact Leads.mono (later value middle step.comes) (fun _ _ further => step.trans further)
      fun _ _ further => step.trans further
  · exact fun _ _ step => step.mono (List.sublist_append_left _ _)

theorem Follows.idly (first : part.Follows host start script m)
    (later : ∀ value middle, m.Comes host middle → (next value).Follows host start [] middle) :
    (part >>= next).Follows host start script m := by
  have whole := first.bind later
  rwa [List.append_nil] at whole

section Primitives

variable (host) (start) (m)

theorem follows_pure (value : α) : (pure value : Run σ α).Follows host start [] m :=
  (leads_pure value).mpr (Machine.follows_refl host start m)

theorem follows_throw (failure : Error) : (throw failure : Run σ α).Follows host start [] m :=
  (leads_throw failure).mpr (Machine.follows_refl host start m)

private theorem follows_get : (get : Run σ (Machine σ)).Follows host start [] m :=
  leads_get.mpr (Machine.follows_refl host start m)

private theorem follows_answer (outcome : Except Error α) :
    (answer outcome : Run σ α).Follows host start [] m :=
  (leads_answer outcome).mpr
    ⟨fun _ _ => Machine.follows_refl host start m, fun _ _ => Machine.follows_refl host start m⟩

theorem follows_ask (question : Heap → Except Error α) : (ask question).Follows host start [] m :=
  (leads_ask question).mpr
    ⟨fun _ _ => Machine.follows_refl host start m, fun _ _ => Machine.follows_refl host start m⟩

theorem follows_record {event : Event} (other : event.deed? = none) :
    (record event : Run σ Unit).Follows host start [] m :=
  (leads_record event).mpr (Machine.follows_note other host start m)

theorem follows_alloc {cell : Cell} (built : cell.isBuilt) :
    (alloc cell : Run σ Value).Follows host start [] m := by
  refine (leads_alloc cell).mpr ⟨.single (.alloc built), [], .slnil, ?_, by simp⟩
  simp

theorem follows_has (container : Value) (name : Text) :
    (has container name : Run σ Bool).Follows host start [] m :=
  (leads_has container name).mpr
    ⟨fun _ _ => Machine.follows_note rfl host start m, fun _ _ => Machine.follows_note rfl host start m⟩

theorem follows_read (container : Value) (selector : Selector) (key : Value) :
    (read container selector key : Run σ Value).Follows host start [] m :=
  (leads_read container selector key).mpr
    ⟨fun _ _ => Machine.follows_note rfl host start m, fun _ _ => Machine.follows_note rfl host start m⟩

theorem follows_guarded (value : Value) : (guarded value : Run σ Value).Follows host start [] m :=
  (leads_guarded value).mpr
    ⟨fun _ => Machine.follows_refl host start m, fun _ _ => Machine.follows_refl host start m⟩

theorem follows_write {event : Event} {container key value : Value} {deed : Deed}
    (writes : event.write? = some (container, key, value)) (done : event.deed? = some deed) :
    (write event container key value : Run σ Unit).Follows host start [deed.toDuty] m :=
  (leads_write event container key value).mpr
    ⟨fun _ written => Machine.follows_step (.write writes written) rfl done,
      fun _ refused => Machine.follows_step (.refuse writes refused) rfl done⟩

private theorem follows_create (container : Value) (selector : Selector) (key : Value) :
    (create container selector key : Run σ Unit).Follows host start
      [Deed.toDuty (.create selector)] m :=
  (follows_alloc host start m rfl).bind fun _ middle _ => follows_write host start middle rfl rfl

private theorem follows_invoke (slot : Nat) (callee : Value) (arguments : List Value) :
    (invoke host slot callee arguments).Follows host start [Deed.toDuty (.call slot)] m :=
  (leads_invoke host slot callee arguments).mpr
    ⟨fun _ _ => Machine.follows_step (.call slot rfl) rfl rfl,
      fun _ _ => Machine.follows_step (.call slot rfl) rfl rfl⟩

end Primitives

end Run

open Run

theorem Frame.follows_slot (host : Host σ) (start m : Machine σ) (frame : Frame) (index : Nat) :
    (frame.slot index : Run σ Value).Follows host start [] m :=
  Frame.leads_slot.mpr
    ⟨fun _ _ => Machine.follows_refl host start m, fun _ => Machine.follows_refl host start m⟩

private theorem Frame.follows_setSlot (host : Host σ) (start m : Machine σ) (frame : Frame)
    (index : Nat)
    (value : Value) : (frame.setSlot index value : Run σ Frame).Follows host start [] m := by
  unfold Frame.setSlot
  split
  · exact (follows_record host start m rfl).idly fun _ middle _ => follows_pure host start middle _
  · exact follows_throw host start m _

theorem Selector.follows_key (host : Host σ) (start m : Machine σ) (frame : Frame) (selector : Selector) :
    (selector.key frame : Run σ Value).Follows host start [] m := by
  cases selector with
  | name field => exact follows_pure host start m _
  | slot index => exact frame.follows_slot host start m index

namespace Code

private theorem call_follows {m : Machine σ} (reached : frame.Reached host start known m) {callee : Nat}
    {arguments : List Code} (checked : known callee = .callee)
    (given : (runAll host frame arguments).Follows host start (scriptAll arguments) m) :
    ((Code.call callee arguments).run host frame).Follows host start (Code.call callee arguments).script m := by
  -- The guard looked at this slot in an earlier statement, and what it holds is what was admitted then.
  obtain ⟨target, held, admitted⟩ := reached.admits callee checked
  have idle : m.Follows host start (Code.call callee arguments).script m :=
    (Machine.follows_refl host start m).mono (List.nil_sublist _)
  refine (leads_bind _ _).mpr (Frame.leads_slot.mpr ⟨fun found same => ?_, fun _ => idle⟩)
  cases held.symm.trans same
  refine (leads_bind _ _).mpr ((leads_ask _).mpr ⟨fun truthy answered => ?_, fun _ _ => idle⟩)
  cases truthy with
  | false => exact idle
  | true =>
    refine (leads_bind _ _).mpr (leads_get.mpr ((leads_ite _ _ _).mpr ?_))
    split
    · exact idle
    · next callable =>
      -- Only from here on are there deeds, and all of them are behind the gate.
      have passed : Gate host start callee m.journal :=
        ⟨m, target, reached.comes, List.suffix_refl _, admitted, answered, by simpa using callable⟩
      have called : (do
          let values ← runAll host frame arguments
          Run.guarded (← invoke host callee target values) : Run σ Value).Follows host start
            (scriptAll arguments ++ [Deed.toDuty (.call callee)]) m := by
        apply given.bind
        intro values middle _
        apply (follows_invoke host start middle callee target values).idly
        intro value last _
        exact follows_guarded host start last value
      have gated {last : Machine σ}
          (follows : m.Follows host start (scriptAll arguments ++ [Deed.toDuty (.call callee)]) last) :
          m.Follows host start (Code.call callee arguments).script last :=
        follows.behind fun slot listed => List.mem_singleton.mp listed ▸ passed
      exact Leads.mono called (fun _ _ follows => gated follows) fun _ _ follows => gated follows

mutual

theorem run_follows {m : Machine σ} (reached : frame.Reached host start known m) :
    (code : Code) → code.isProper known → (code.run host frame).Follows host start code.script m
  | .locals, _ => follows_pure host start m _
  | .scope, _ => follows_pure host start m _
  | .parameter, _ => follows_pure host start m _
  | .literal _ _, _ => follows_pure host start m _
  | .slot index, _ => frame.follows_slot host start m index
  | .owner name, _ => by
    apply (follows_has host start m _ name).bind
    intro found middle _
    cases found with
    | true => exact follows_pure host start middle _
    | false => exact follows_pure host start middle _
  | .array items, proper => by
    apply (runAll_follows reached items proper).idly
    intro values middle _
    exact (follows_record host start middle rfl).bind fun _ middle _ => follows_alloc host start middle rfl
  | .object keys values, proper => by
    apply (runEntries_follows reached keys values [] proper).idly
    intro entries middle _
    exact follows_alloc host start middle rfl
  | .member container selector, proper => by
    simp only [isProper, Bool.and_eq_true] at proper
    apply (run_follows reached container proper.1.1).idly
    intro subject middle _
    apply (selector.follows_key host start middle frame).idly
    intro key last _
    exact follows_read host start last subject selector key
  | .guarded code, proper => by
    apply (run_follows reached code proper).idly
    intro value middle _
    exact follows_guarded host start middle value
  | .call callee arguments, proper => by
    simp only [isProper, Bool.and_eq_true, decide_eq_true_eq] at proper
    exact call_follows reached proper.1 (runAll_follows reached arguments proper.2)
  | .store site container selector value, proper => by
    simp only [isProper, Bool.and_eq_true] at proper
    obtain ⟨⟨⟨⟨inner, _⟩, _⟩, whole⟩, _⟩ := proper
    rw [script, List.append_assoc]
    apply (run_follows reached container inner).bind
    intro subject middle first
    apply (selector.follows_key host start middle frame).bind
    intro key later second
    apply (run_follows (reached.later (first.trans second)) value whole).bind
    intro stored last _
    apply (follows_write host start last rfl rfl).idly
    intro _ final _
    exact follows_pure host start final stored

theorem runAll_follows {m : Machine σ} (reached : frame.Reached host start known m) :
    (codes : List Code) → areProper known codes →
      (runAll host frame codes).Follows host start (scriptAll codes) m
  | [], _ => follows_pure host start m _
  | code :: codes, proper => by
    simp only [areProper, Bool.and_eq_true] at proper
    apply (run_follows reached code proper.1.1).bind
    intro value middle first
    apply (runAll_follows (reached.later first) codes proper.2).idly
    intro values last _
    exact follows_pure host start last _

theorem runEntries_follows {m : Machine σ} (reached : frame.Reached host start known m) :
    (keys : List (Value × Text)) → (codes : List Code) → (entries : Entries) → areProper known codes →
      (runEntries host frame keys codes entries).Follows host start (scriptAll codes) m
  | [], codes, _, _ => by
    unfold runEntries
    exact (follows_pure host start m _).mono (List.nil_sublist _)
  | _ :: _, [], _, _ => by
    unfold runEntries
    exact follows_pure host start m _
  | key :: keys, code :: codes, entries, proper => by
    simp only [areProper, Bool.and_eq_true] at proper
    apply (run_follows reached code proper.1.1).bind
    intro value middle first
    apply (follows_record host start middle rfl).bind
    intro _ later second
    apply (follows_get host start later).bind
    intro state last third
    split
    · exact runEntries_follows (reached.later ((first.trans second).trans third)) keys codes _ proper.2
    · exact (follows_throw host start last _).mono (List.nil_sublist _)

end

end Code

section Statements

variable (reached : frame.Reached host start known m)

include reached

theorem Question.run_follows (question : Question) (proper : question.isProper known) :
    (question.run host frame).Follows host start question.script m := by
  cases question with
  | has container name =>
    simp only [Question.isProper, Bool.and_eq_true] at proper
    apply (container.run_follows reached proper.1.1).idly
    intro subject middle _
    exact follows_has host start middle subject name
  | holds code =>
    apply (code.run_follows reached proper).idly
    intro value middle _
    exact follows_ask host start middle _

omit reached in
theorem Condition.runAll_follows {m : Machine σ} (reached : frame.Reached host start known m)
    (conditions : List Condition) (proper : conditions.all (·.question.isProper known)) :
    (Condition.runAll host frame conditions).Follows host start
      (conditions.flatMap (·.question.script)) m := by
  induction conditions generalizing m with
  | nil => exact follows_pure host start m _
  | cons condition conditions hypothesis =>
    simp only [List.all_cons, Bool.and_eq_true] at proper
    have first : (condition.run host frame).Follows host start condition.question.script m :=
      (condition.question.run_follows reached proper.1).idly fun _ middle _ => follows_pure host start middle _
    apply first.bind
    intro holds middle step
    cases holds with
    | true => exact hypothesis (reached.later step) proper.2
    | false => exact (follows_pure host start middle _).mono (List.nil_sublist _)

theorem Action.run_follows_assign (slot : Nat) {code : Code} (proper : code.isProper known) :
    ((Action.assign slot code).run host frame).Follows host start code.script m := by
  apply (code.run_follows reached proper).idly
  intro value middle _
  exact frame.follows_setSlot host start middle slot value

theorem Action.run_follows_create (selector : Selector) {container : Code}
    (proper : container.isProper known) :
    ((Action.create container selector).run host frame).Follows host start
      (Action.create container selector).script m := by
  apply (selector.follows_key host start m frame).bind
  intro key middle first
  apply (container.run_follows (reached.later first) proper).bind
  intro subject later second
  apply (follows_create host start later subject selector key).idly
  intro _ last _
  exact follows_pure host start last frame

theorem Statement.run_follows (statement : Statement) (proper : statement.isProper known) :
    (statement.run host frame).Follows host start statement.script m := by
  cases statement with
  | perform action =>
    cases action with
    | assign slot code =>
      simp only [isProper, Bool.and_eq_true] at proper
      exact Action.run_follows_assign reached slot proper.2
    | create container selector =>
      simp only [isProper, Bool.and_eq_true] at proper
      exact Action.run_follows_create reached selector proper.1.1
  | guardedBy conditions action =>
    cases action with
    | assign slot code =>
      simp only [isProper, Bool.and_eq_true] at proper
      apply (Condition.runAll_follows reached conditions proper.1.1).bind
      intro holds middle step
      cases holds with
      | true => exact Action.run_follows_assign (reached.later step) slot proper.2
      | false => exact (follows_pure host start middle _).mono (List.nil_sublist _)
    | create container selector =>
      simp only [isProper, Bool.and_eq_true] at proper
      apply (Condition.runAll_follows reached conditions proper.1.1.1).bind
      intro holds middle step
      cases holds with
      | true => exact Action.run_follows_create (reached.later step) selector proper.1.1.2
      | false => exact (follows_pure host start middle _).mono (List.nil_sublist _)
  | checkObject code =>
    apply (code.run_follows reached proper).idly
    intro value middle _
    apply (follows_guarded host start middle value).bind
    intro _ last _
    exact follows_pure host start last frame
  | checkName slot =>
    apply (frame.follows_slot host start m slot).bind
    intro key middle _
    apply (follows_answer host start middle _).bind
    intro _ later _
    apply (follows_record host start later rfl).bind
    intro _ last _
    exact follows_pure host start last frame
  | checkFunction slot =>
    apply (frame.follows_slot host start m slot).bind
    intro callee middle _
    apply (follows_ask host start middle _).bind
    intro _ later _
    apply (follows_record host start later rfl).bind
    intro _ last _
    exact follows_pure host start last frame
  | result code =>
    simp only [isProper, Bool.and_eq_true] at proper
    apply (code.run_follows reached proper.1).idly
    intro value middle _
    exact follows_pure host start middle _

end Statements

theorem Statement.runAll_follows {fit : Heap → Value → Prop} (fitness : Fitness host fit)
    (sound : frame.Sound fit known m) (comes : start.Comes host m) (statements : List Statement)
    (proper : Statement.areProper known statements) :
    (Statement.runAll host frame statements).Follows host start (scriptAll statements) m := by
  induction statements generalizing known frame m with
  | nil => exact follows_pure host start m frame
  | cons statement statements hypothesis =>
    simp only [areProper, Bool.and_eq_true] at proper
    -- Following a script needs the frame to be sound, so soundness is carried along.
    have kept := statement.leads_run_sound fitness sound proper.1
    have done := statement.run_follows (sound.reached comes) proper.1
    refine (leads_bind _ _).mpr ((kept.and done).mono ?_ ?_)
    · rintro after middle ⟨still, step⟩
      have rest := hypothesis still (comes.trans step.comes) proper.2
      exact Leads.mono rest (fun _ _ further => step.trans further) fun _ _ further => step.trans further
    · exact fun _ _ failed => failed.2.mono (List.sublist_append_left _ _)

theorem Routine.run_follows {routine : Routine} (proper : routine.isProper) (host : Host σ) (m : Machine σ)
    (unused : m.journal = []) (locals scope parameter : Value) :
    (routine.run host locals scope parameter).Follows host m routine.script m := by
  have sound : (Frame.start locals scope parameter routine.slots).Sound (fun _ _ => True) (fun _ => .empty) m :=
    Frame.sound_start (Fitness.any host) unused trivial trivial parameter routine.slots
  apply (Statement.runAll_follows (Fitness.any host) sound .refl routine.statements proper).idly
  intro _ last _
  exact follows_pure host m last _

end GuardedExpr

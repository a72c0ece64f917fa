import GuardedExpr.Proofs.Run.CodeYields

/-!
Parts of a run that only look at the heap. Such a part has the outcome that the same questions have when they
are put to the heap directly, so the statements that read a name can be computed with.
-/

namespace GuardedExpr

variable {σ α β : Type} {host : Host σ} {h : Heap} {frame : Frame}

namespace Run

def Finds (part : Run σ α) (h : Heap) (outcome : Except Error α) : Prop :=
  ∀ m : Machine σ, m.heap = h →
    part.Leads m (fun value last => last.heap = h ∧ outcome = .ok value) fun failure _ =>
      outcome = .error failure

theorem finds_pure (value : α) : (pure value : Run σ α).Finds h (.ok value) :=
  fun _ same => ⟨same, rfl⟩

theorem finds_bind {part : Run σ β} {next : β → Run σ α} {outcome : Except Error β}
    {rest : β → Except Error α} (first : part.Finds h outcome)
    (further : ∀ value, outcome = .ok value → (next value).Finds h (rest value)) :
    (part >>= next).Finds h (outcome >>= rest) := by
  intro m same
  refine (leads_bind part next).mpr ((first m same).mono ?_ ?_)
  · rintro value last ⟨kept, rfl⟩
    exact further value rfl last kept
  · rintro failure last rfl
    rfl

theorem Finds.bind_ok {part : Run σ β} {next : β → Run σ α} {value : β} {outcome : Except Error α}
    (first : part.Finds h (.ok value)) (further : (next value).Finds h outcome) :
    (part >>= next).Finds h outcome := by
  intro m same
  refine (leads_bind part next).mpr ((first m same).mono ?_ nofun)
  rintro found last ⟨kept, same⟩
  cases same
  exact further last kept

theorem Finds.leads {part : Run σ α} {m : Machine σ} {outcome : Except Error α}
    {good : α → Machine σ → Prop} {bad : Error → Machine σ → Prop} (finds : part.Finds m.heap outcome)
    (onValue : ∀ value last, last.heap = m.heap → outcome = .ok value → good value last)
    (onFailure : ∀ failure last, outcome = .error failure → bad failure last) : part.Leads m good bad :=
  (finds m rfl).mono (fun value last reached => onValue value last reached.1 reached.2) onFailure

theorem finds_has (container : Value) (name : Text) :
    (has container name : Run σ Bool).Finds h (h.hasMember container name) := by
  rintro m rfl
  exact (leads_has container name).mpr ⟨fun _ found => ⟨rfl, found⟩, fun _ failed => failed⟩

theorem finds_read (container : Value) (selector : Selector) (key : Value) :
    (read container selector key : Run σ Value).Finds h (h.getMember container key) := by
  rintro m rfl
  exact (leads_read container selector key).mpr ⟨fun _ found => ⟨rfl, found⟩, fun _ failed => failed⟩

theorem finds_ask (question : Heap → Except Error α) :
    (ask question : Run σ α).Finds h (question h) := by
  rintro m rfl
  exact (leads_ask question).mpr ⟨fun _ found => ⟨rfl, found⟩, fun _ failed => failed⟩

private theorem finds_answer (outcome : Except Error α) :
    (answer outcome : Run σ α).Finds h outcome :=
  fun _ same => (leads_answer outcome).mpr ⟨fun _ found => ⟨same, found⟩, fun _ failed => failed⟩

private theorem finds_record (event : Event) : (record event : Run σ Unit).Finds h (.ok ()) :=
  fun _ same => (leads_record event).mpr ⟨same, rfl⟩

theorem finds_guarded (value : Value) :
    (guarded value : Run σ Value).Finds h (h.guarded (.ok value)) :=
  finds_bind (finds_ask _) fun _ _ => finds_pure value

end Run

namespace Frame

def held (frame : Frame) (slot : Nat) : Except Error Value :=
  match frame.slots[slot]? with
  | some value => .ok value
  | none => .error (.fault .missingSlot)

private theorem finds_slot (slot : Nat) :
    (frame.slot slot : Run σ Value).Finds h (frame.held slot) := by
  unfold Frame.slot held
  cases frame.slots[slot]? with
  | some value => exact Run.finds_pure value
  | none => exact fun _ _ => rfl

theorem finds_of_held {slot : Nat} {value : Value} (held : frame.slots[slot]? = some value) :
    (frame.slot slot : Run σ Value).Finds h (.ok value) := by
  unfold Frame.slot
  rw [held]
  exact Run.finds_pure value

private theorem finds_setSlot (slot : Nat) (value : Value) :
    (frame.setSlot slot value : Run σ Frame).Finds h
      (if slot < frame.slots.length then .ok (frame.fill slot value) else .error (.fault .missingSlot)) := by
  intro m same
  split
  · next room => exact (leads_setSlot room).mpr ⟨same, rfl⟩
  · next outside =>
    unfold setSlot
    rw [if_neg outside]
    rfl

theorem fill_self {slot : Nat} {value : Value} (held : frame.slots[slot]? = some value) :
    frame.fill slot value = frame := by
  have same : frame.slots.set slot value = frame.slots := by
    apply List.ext_getElem?
    intro other
    by_cases here : slot = other
    · subst other
      rw [List.getElem?_set_self', held]
      rfl
    · rw [List.getElem?_set_ne here]
  rw [fill, same]

end Frame

/-! The statements of a name. -/

section Names

open Run

theorem Condition.finds_yes {question : Question} {outcome : Except Error Bool}
    (asked : (question.run host frame).Finds h outcome) :
    (Condition.runAll host frame [question.yes]).Finds h outcome := by
  intro m same
  refine (leads_bind _ _).mpr ((leads_bind _ _).mpr ((asked m same).imp ?_))
  rintro answer last ⟨kept, rfl⟩
  cases answer <;> exact ⟨kept, rfl⟩

private theorem Condition.finds_no {question : Question} {conditions : List Condition}
    {outcome rest : Except Error Bool} (asked : (question.run host frame).Finds h outcome)
    (others : (Condition.runAll host frame conditions).Finds h rest) :
    (Condition.runAll host frame (question.no :: conditions)).Finds h
      (outcome >>= fun answer => if answer then .ok false else rest) := by
  intro m same
  refine (leads_bind _ _).mpr ((leads_bind _ _).mpr ((asked m same).mono ?_ ?_))
  · rintro answer last ⟨kept, rfl⟩
    cases answer with
    | true => exact ⟨kept, rfl⟩
    | false => exact others last kept
  · rintro failure last rfl
    rfl

theorem Statement.finds_guardedBy (slot : Nat) {conditions : List Condition} {code : Code}
    {holds : Except Error Bool} {outcome : Except Error Value}
    (asked : (Condition.runAll host frame conditions).Finds h holds)
    (read : (code.run host frame).Finds h outcome) :
    ((Statement.guardedBy conditions (.assign slot code)).run host frame).Finds h
      (holds >>= fun hold => if hold then outcome >>= fun value =>
          if slot < frame.slots.length then .ok (frame.fill slot value)
          else .error (.fault .missingSlot)
        else .ok frame) := by
  refine finds_bind asked fun hold _ => ?_
  cases hold with
  | true => exact finds_bind read fun value _ => Frame.finds_setSlot slot value
  | false => exact finds_pure frame

theorem Question.finds_has (container : Code) (name : Text) {subject : Value}
    (found : (container.run host frame).Finds h (.ok subject)) :
    ((Question.has container name).run host frame).Finds h (h.hasMember subject name) :=
  found.bind_ok (Run.finds_has subject name)

private theorem Question.finds_holds (code : Code) {subject : Value}
    (found : (code.run host frame).Finds h (.ok subject)) :
    ((Question.holds code).run host frame).Finds h (h.isTruthy subject) :=
  found.bind_ok (finds_ask _)

theorem Code.finds_member (container : Code) (name : Text) {subject : Value}
    (found : (container.run host frame).Finds h (.ok subject)) :
    ((Code.member container (.name name)).run host frame).Finds h
      (h.getMember subject (.text name)) :=
  found.bind_ok ((finds_pure (Value.text name)).bind_ok (finds_read subject (.name name) _))

private theorem Statement.finds_checkObject (slot : Nat) :
    ((Statement.checkObject (.slot slot)).run host frame).Finds h
      (frame.held slot >>= fun value => h.guarded (.ok value) >>= fun _ => .ok frame) :=
  finds_bind (Frame.finds_slot slot) fun value _ =>
    finds_bind (finds_guarded value) fun _ _ => finds_pure frame

theorem Statement.finds_checkName {slot : Nat} {key : Value} (held : frame.slots[slot]? = some key) :
    ((Statement.checkName slot).run host frame).Finds h (Guard.memberName key >>= fun _ => .ok frame) := by
  refine (Frame.finds_of_held held).bind_ok ?_
  exact finds_bind (finds_answer _) fun _ _ =>
    (finds_record (.cleared slot key)).bind_ok (finds_pure frame)

def resolutionSteps (h : Heap) (frame : Frame) (name : Text) (slot : Nat) : Except Error Frame := do
  let keep (frame : Frame) (value : Value) : Except Error Frame :=
    if slot < frame.slots.length then .ok (frame.fill slot value) else .error (.fault .missingSlot)
  let first ← h.hasMember frame.locals name >>= fun hold =>
    if hold then h.getMember frame.locals (.text name) >>= keep frame else .ok frame
  let second ←
    (h.hasMember first.locals name >>= fun owns => if owns then .ok false else h.isTruthy first.scope) >>=
      fun hold => if hold then h.getMember first.scope (.text name) >>= keep first else .ok first
  second.held slot >>= fun value => h.guarded (.ok value) >>= fun _ => .ok second

private theorem finds_resolutionSteps (name : Text) (slot : Nat) :
    (Statement.runAll host frame (resolution name false slot)).Finds h
      (resolutionSteps h frame name slot) := by
  have inLocals (frame : Frame) :
      (Condition.runAll host frame [(Question.has .locals name).yes]).Finds h
        (h.hasMember frame.locals name) :=
    Condition.finds_yes (Question.finds_has .locals name (finds_pure frame.locals))
  have inScope (frame : Frame) :
      (Condition.runAll host frame [(Question.has .locals name).no, (Question.holds .scope).yes]).Finds h
        (h.hasMember frame.locals name >>= fun owns => if owns then .ok false else h.isTruthy frame.scope) :=
    Condition.finds_no (Question.finds_has .locals name (finds_pure frame.locals))
      (Condition.finds_yes (Question.finds_holds .scope (finds_pure frame.scope)))
  apply finds_bind (Statement.finds_guardedBy slot (inLocals frame)
    (Code.finds_member .locals name (finds_pure frame.locals)))
  intro first _
  apply finds_bind (Statement.finds_guardedBy slot (inScope first)
    (Code.finds_member .scope name (finds_pure first.scope)))
  intro second _
  have last : (Statement.runAll host second [.checkObject (.slot slot)]).Finds h
      ((second.held slot >>= fun value => h.guarded (.ok value) >>= fun _ => .ok second) >>= pure) :=
    finds_bind (Statement.finds_checkObject slot) fun third _ => finds_pure third
  rwa [bind_pure] at last

private theorem resolutionSteps_eq {name : Text} {slot : Nat} (room : slot < frame.slots.length)
    (null : frame.slots[slot]? = some .null) :
    resolutionSteps h frame name slot =
      frame.fill slot <$> h.guarded (h.resolve frame.locals frame.scope name) := by
  have checked (value : Value) :
      ((frame.fill slot value).held slot >>= fun found => h.guarded (.ok found) >>= fun _ =>
        .ok (frame.fill slot value)) = frame.fill slot <$> h.guarded (.ok value) := by
    have filled : (frame.fill slot value).held slot = .ok value := by
      simp [Frame.held, Frame.fill, room]
    rw [filled]
    simp only [bind, Except.bind, Heap.guarded]
    cases Guard.object h value <;> rfl
  have same : frame = frame.fill slot .null := (Frame.fill_self null).symm
  have locals (value : Value) : (frame.fill slot value).locals = frame.locals := rfl
  have step {α β : Type} (value : α) (next : α → Except Error β) : (.ok value >>= next) = next value := rfl
  unfold resolutionSteps Heap.resolve
  cases owns : h.hasMember frame.locals name with
  | error failure => rfl
  | ok found =>
    cases found with
    | true =>
      cases h.getMember frame.locals (.text name) with
      | error failure => rfl
      | ok value =>
        simp only [step, room, if_true, locals, owns, Bool.false_eq_true, if_false]
        exact checked value
    | false =>
      simp only [step, owns, Bool.false_eq_true, if_false]
      cases h.isTruthy frame.scope with
      | error failure => rfl
      | ok truthy =>
        cases truthy with
        | false =>
          have unset := checked .null
          rw [← same] at unset
          exact unset
        | true =>
          cases h.getMember frame.scope (.text name) with
          | error failure => rfl
          | ok value =>
            simp only [step, room, if_true]
            exact checked value

theorem finds_resolution {name : Text} {slot : Nat} (room : slot < frame.slots.length)
    (null : frame.slots[slot]? = some .null) :
    (Statement.runAll host frame (resolution name false slot)).Finds h
      (frame.fill slot <$> h.guarded (h.resolve frame.locals frame.scope name)) :=
  resolutionSteps_eq room null ▸ finds_resolutionSteps name slot

end Names

end GuardedExpr

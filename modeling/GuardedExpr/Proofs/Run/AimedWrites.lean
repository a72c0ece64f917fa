import GuardedExpr.Proofs.Node.TreeTraits
import GuardedExpr.Proofs.Run.EffectOrder
import GuardedExpr.Proofs.Run.RebuiltContainers

/-!
An expression writes only where its assignments aim. Every run is a sequence of steps of which all but the stores and
the calls of the host leave alone what is true; and an expression without assignments writes nothing.
-/

namespace GuardedExpr

variable {σ : Type} {setting : Setting σ} {frame : Frame} {m last : Machine σ}

open Run

theorem Code.leads_place {code : Code} (place : code.isPlace) (matching : frame.Matches setting m.journal) :
    (code.run setting.host frame).Leads m
      (fun v last => m.Goes setting last ∧ code.Denotes setting m.journal v) fun _ last => m.Goes setting last := by
  cases code with
  | owner name =>
    have step {event : Event} (other : event.deed? = none) (slots : Event.SameSlots m.journal (event :: m.journal)) :
        m.Goes setting (m.note event) := Machine.goes_note other slots
    refine (leads_bind _ _).mpr ((leads_has _ _).mpr ⟨fun found _ => ?_, fun _ _ => step rfl fun _ => rfl⟩)
    cases found with
    | true => exact ⟨step rfl fun _ => rfl, .inl matching.locals⟩
    | false => exact ⟨step rfl fun _ => rfl, .inr matching.scope⟩
  | _ => exact (leads_shows _ place matching).imp fun v last reached => ⟨reached.1, reached.2.denotes⟩

namespace Code

theorem place_goes {code : Code} (place : code.isPlace) (matching : frame.Matches setting m.journal) :
    (code.run setting.host frame).Goes setting m :=
  Leads.mono (leads_place place matching) (fun _ _ reached => reached.1) fun _ _ went => went

private theorem write_goes {site : Nat} {container : Code} {selector : Selector}
    {subject stored : Value}
    (stores : setting.root.Stores setting.compiling site ⟨container, selector⟩)
    (denotes : container.Denotes setting m.journal subject) :
    (write (.stored site subject selector (selector.denoted m.journal) stored) subject
      (selector.denoted m.journal) stored : Run σ Unit).Goes setting m := by
  have step : m.Goes setting (m.wrote (.stored site subject selector (selector.denoted m.journal) stored) subject
      (selector.denoted m.journal) stored) := by
    refine ⟨.single (.store stores denotes), ?_⟩
    rw [Machine.journal_wrote]
    exact fun _ => rfl
  exact (leads_write_wrote _ _ _ _).mono (fun _ _ same => same ▸ step) fun _ _ same => same ▸ step

mutual

theorem run_goes : (code : Code) → code.IsSited setting.compiling setting.root → ∀ {m : Machine σ},
    frame.Matches setting m.journal → (code.run setting.host frame).Goes setting m
  | .locals, _, _, _ | .scope, _, _, _ | .parameter, _, _, _ | .literal _ _, _, _, _ => goes_pure _
  | .slot index, _, _, _ => frame.goes_slot index
  | .owner _, _, _, matching => place_goes rfl matching
  | .array items, sited, m, matching => by
    apply (runAll_goes items sited matching).bind
    intro values middle _
    exact (goes_record rfl fun _ => rfl).bind fun _ _ _ => goes_alloc rfl
  | .object keys values, sited, m, matching => by
    apply (runEntries_goes keys values [] sited matching).bind
    intro entries middle _
    exact goes_alloc rfl
  | .member container selector, sited, m, matching => by
    apply (place_goes sited matching).bind
    intro subject middle _
    exact selector.goes_key.bind fun key _ _ => goes_read subject selector key
  | .guarded code, sited, m, matching => by
    apply (run_goes code sited matching).bind
    intro value middle _
    exact goes_guarded value
  | .call callee arguments, sited, m, matching => by
    apply (frame.goes_slot callee).bind
    intro target middle first
    apply (goes_ask _).bind
    intro truthy last second
    cases truthy with
    | false => exact goes_pure _
    | true =>
      refine (leads_bind _ _).mpr (leads_get.mpr ((leads_ite _ _ _).mpr ?_))
      split
      · exact goes_throw _
      · refine (runAll_goes arguments sited (matching.goes (first.trans second))).bind fun values ending _ => ?_
        exact (goes_invoke callee target values).bind fun value _ _ => goes_guarded value
  | .store site container selector value, sited, m, matching => by
    obtain ⟨stores, place, whole⟩ := sited
    refine (leads_bind _ _).mpr ((leads_place place matching).mono ?_ fun _ _ went => went)
    rintro subject middle ⟨first, denotes⟩
    refine Goes.after first ((leads_bind _ _).mpr ((selector.leads_denoted (matching.goes first)).mono ?_
      fun _ _ same => same ▸ Machine.goes_refl setting middle))
    rintro key later ⟨same, rfl⟩
    rw [same, ← Goes]
    apply (run_goes value whole (matching.goes first)).bind
    intro stored ending second
    rw [← selector.denoted_later second.slots]
    exact (write_goes stores (denotes.later (first.trans second).slots)).bind fun _ _ _ => goes_pure stored

theorem runAll_goes : (codes : List Code) → AreSited setting.compiling setting.root codes → ∀ {m : Machine σ},
    frame.Matches setting m.journal → (runAll setting.host frame codes).Goes setting m
  | [], _, _, _ => goes_pure _
  | code :: codes, sited, m, matching => by
    apply (run_goes code sited.1 matching).bind
    intro value middle first
    apply (runAll_goes codes sited.2 (matching.goes first)).bind
    intro values last _
    exact goes_pure _

theorem runEntries_goes : (keys : List (Value × Text)) → (codes : List Code) → (entries : Entries) →
    AreSited setting.compiling setting.root codes → ∀ {m : Machine σ}, frame.Matches setting m.journal →
      (runEntries setting.host frame keys codes entries).Goes setting m
  | [], _, _, _, _, _ => by
    unfold runEntries
    exact goes_pure _
  | _ :: _, [], _, _, _, _ => by
    unfold runEntries
    exact goes_pure _
  | key :: keys, code :: codes, entries, sited, m, matching => by
    apply (run_goes code sited.1 matching).bind
    intro value middle first
    apply (goes_record rfl fun _ => rfl).bind
    intro _ later second
    refine (leads_bind _ _).mpr (leads_get.mpr ?_)
    split
    · exact runEntries_goes keys codes _ sited.2 (matching.goes (first.trans second))
    · exact goes_throw _

end

end Code

theorem Question.run_goes (question : Question) (sited : question.IsSited setting.compiling setting.root)
    (matching : frame.Matches setting m.journal) : (question.run setting.host frame).Goes setting m := by
  cases question with
  | has container name => exact (Code.place_goes sited matching).bind fun subject _ _ => goes_has subject name
  | holds code => exact (code.run_goes sited matching).bind fun _ _ _ => goes_ask _

theorem Condition.run_goes (condition : Condition)
    (sited : condition.question.IsSited setting.compiling setting.root) (matching : frame.Matches setting m.journal) :
    (condition.run setting.host frame).Goes setting m :=
  (condition.question.run_goes sited matching).bind fun _ _ _ => goes_pure _

theorem Condition.runAll_goes (conditions : List Condition)
    (sited : ∀ condition ∈ conditions, condition.question.IsSited setting.compiling setting.root)
    (matching : frame.Matches setting m.journal) : (Condition.runAll setting.host frame conditions).Goes setting m := by
  induction conditions generalizing m with
  | nil => exact goes_pure _
  | cons condition conditions ih =>
    obtain ⟨head, tail⟩ := List.forall_mem_cons.mp sited
    apply (condition.run_goes head matching).bind
    intro holds middle went
    cases holds with
    | true => exact ih tail (matching.goes went)
    | false => exact goes_pure _

def Statement.Acts (setting : Setting σ) (part : Run σ Frame) (m : Machine σ) : Prop :=
  part.Leads m
    (fun after last => Relation.ReflTransGen (Machine.Acts setting) m last ∧ after.Matches setting last.journal)
    fun _ last => Relation.ReflTransGen (Machine.Acts setting) m last

namespace Statement

private theorem acts_setSlot (matching : frame.Matches setting m.journal) (slot : Nat)
    (value : Value) :
    Acts setting (frame.setSlot slot value) m := by
  unfold Frame.setSlot
  refine (leads_ite _ _ _).mpr ?_
  split
  · next room =>
    refine ⟨.single (.note rfl), matching.locals, matching.scope, fun index found present => ?_⟩
    by_cases same : index = slot
    · subst same
      rw [List.getElem?_set_self room] at present
      cases present
      exact (if_pos rfl).symm
    · rw [List.getElem?_set_ne (Ne.symm same)] at present
      exact (matching.slots index found present).trans (if_neg (Ne.symm same)).symm
  · exact .refl

theorem acts_bind {α : Type} {part : Run σ α} {next : α → Run σ Frame} (first : part.Goes setting m)
    (rest : ∀ value middle, m.Goes setting middle → Acts setting (next value) middle) :
    Acts setting (part >>= next) m := by
  refine (leads_bind _ _).mpr (Leads.mono first (fun value middle went => ?_) fun _ _ went => went.steps)
  exact (rest value middle went).mono (fun _ _ reached => ⟨went.steps.trans reached.1, reached.2⟩)
    fun _ _ reached => went.steps.trans reached

theorem acts_pure (matching : frame.Matches setting m.journal) : Acts setting (pure frame) m :=
  ⟨.refl, matching⟩

theorem acts_assign (matching : frame.Matches setting m.journal) (slot : Nat) {code : Code}
    (sited : code.IsSited setting.compiling setting.root) :
    Acts setting ((Action.assign slot code).run setting.host frame) m :=
  acts_bind (code.run_goes sited matching) fun value _ went => acts_setSlot (matching.goes went) slot value

end Statement

theorem Condition.leads_no {question : Question} {known : Machine σ → Prop}
    (asked : (question.run setting.host frame).Leads m
      (fun answer last => m.Goes setting last ∧ (answer = false → known last)) fun _ last => m.Goes setting last) :
    (question.no.run setting.host frame).Leads m
      (fun holds last => m.Goes setting last ∧ (holds = true → known last)) fun _ last => m.Goes setting last := by
  refine (leads_bind _ _).mpr (asked.imp fun answer last ⟨went, facts⟩ => ⟨went, fun holds => facts ?_⟩)
  cases answer with
  | true => cases holds
  | false => rfl

theorem Question.leads_has_name {container : Code} {v : Value}
    (gives : (container.run setting.host frame : Run σ Value) = pure v) (name : Text) :
    ((Question.has container name).run setting.host frame).Leads m
      (fun answer last => m.Goes setting last ∧
        (answer = false → last.heap = m.heap ∧ m.heap.hasMember v name = .ok false))
      fun _ last => m.Goes setting last := by
  have step (answer : Option Bool) : m.Goes setting (m.note (.asked v name answer)) :=
    Machine.goes_note rfl fun _ => rfl
  rw [Question.run, gives, pure_bind]
  exact (Run.leads_has _ _).mpr
    ⟨fun found answered => ⟨step _, fun missing => ⟨rfl, missing ▸ answered⟩⟩, fun _ _ => step _⟩

private theorem Condition.leads_yes_scope :
    ((Question.holds .scope).yes.run setting.host frame).Leads m
    (fun _ last => m.Goes setting last ∧ last.heap = m.heap) fun _ last => m.Goes setting last :=
  (leads_bind _ _).mpr ((leads_bind _ _).mpr ((leads_ask _).mpr
    ⟨fun _ _ => ⟨Machine.goes_refl setting m, rfl⟩, fun _ _ => Machine.goes_refl setting m⟩))

theorem Condition.leads_runAll_cons {condition : Condition} (conditions : List Condition)
    {known : Bool → Machine σ → Prop} {good : Machine σ → Prop}
    (first : (condition.run setting.host frame).Leads m (fun holds last => m.Goes setting last ∧ known holds last)
      fun _ last => m.Goes setting last)
    (rest : ∀ middle, m.Goes setting middle → known true middle →
      (Condition.runAll setting.host frame conditions).Leads middle
        (fun holds last => middle.Goes setting last ∧ (holds = true → good last)) fun _ last => middle.Goes setting last) :
    (Condition.runAll setting.host frame (condition :: conditions)).Leads m
      (fun holds last => m.Goes setting last ∧ (holds = true → good last)) fun _ last => m.Goes setting last := by
  refine leads_bind_goes first fun holds middle went facts => ?_
  cases holds with
  | true => exact rest middle went facts
  | false => exact ⟨Machine.goes_refl setting middle, nofun⟩

/-- A name is found to be missing where neither the locals nor the scope have it. -/
theorem Condition.leads_missing (matching : frame.Matches setting m.journal) (name : Text) :
    (Condition.runAll setting.host frame [(Question.has .locals name).no, (Question.holds .scope).yes,
      (Question.has .scope name).no]).Leads m
      (fun holds last => m.Goes setting last ∧ (holds = true →
        last.heap.hasMember setting.locals name = .ok false ∧ last.heap.hasMember setting.scope name = .ok false))
      fun _ last => m.Goes setting last := by
  have locals : (Code.locals.run setting.host frame : Run σ Value) = pure setting.locals := by
    rw [Code.run, matching.locals]
  have scope : (Code.scope.run setting.host frame : Run σ Value) = pure setting.scope := by
    rw [Code.run, matching.scope]
  refine leads_runAll_cons _ (leads_no (Question.leads_has_name locals name)) fun one _ foreign => ?_
  refine leads_runAll_cons _ leads_yes_scope fun two _ second => ?_
  refine leads_runAll_cons _ (leads_no (Question.leads_has_name scope name)) fun three _ absent => ?_
  refine ⟨Machine.goes_refl setting three, fun _ => ?_⟩
  obtain ⟨first, foreign⟩ := foreign rfl
  obtain ⟨third, absent⟩ := absent rfl
  rw [third, second]
  exact ⟨first ▸ foreign, second ▸ absent⟩

namespace Statement

theorem acts_create {container : Value} {selector : Selector} {key : Value} (matching : frame.Matches setting m.journal)
    (step : Machine.Acts setting m (m.made container selector key)) :
    Acts setting (do create container selector key; return frame) m := by
  have slots : Event.SameSlots m.journal (m.made container selector key).journal := by
    unfold Machine.made
    rw [Machine.journal_wrote]
    exact fun _ => rfl
  refine (leads_bind _ _).mpr ((leads_create_made container selector key).mono ?_ ?_)
  · rintro - _ rfl
    exact ⟨.single step, matching.later slots⟩
  · rintro - _ rfl
    exact .single step

private theorem acts_name {name : Text} {free : Nat}
    (on : setting.root.OnTarget setting.compiling (.identifier name) free)
    (matching : frame.Matches setting m.journal) :
    Acts setting ((Statement.guardedBy [(Question.has .locals name).no, (Question.holds .scope).yes,
      (Question.has .scope name).no] (.create .scope (.name name))).run setting.host frame) m := by
  refine (leads_bind _ _).mpr ((Condition.leads_missing matching name).mono ?_ fun _ _ went => went.steps)
  rintro holds middle ⟨went, facts⟩
  cases holds with
  | false => exact ⟨went.steps, matching.goes went⟩
  | true =>
    obtain ⟨foreign, absent⟩ := facts rfl
    have here := matching.goes went
    have reads : (Action.create .scope (.name name)).run setting.host frame =
        (do create setting.scope (.name name) (.text name); return frame : Run σ Frame) := by
      rw [← here.scope]
      rfl
    have made := acts_create here (Machine.Acts.name on foreign absent)
    rw [if_pos rfl, reads]
    exact made.mono (fun _ _ reached => ⟨went.steps.trans reached.1, reached.2⟩)
      fun _ _ reached => went.steps.trans reached

private theorem acts_member {place : Place} (fills : setting.root.Fills setting.compiling place)
    (plain : place.container.isPlain) (matching : frame.Matches setting m.journal) :
    Acts setting ((Statement.guardedBy [(Question.holds (.member place.container place.selector)).no]
      (.create place.container place.selector)).run setting.host frame) m := by
  have missing := Condition.leads_runAll_cons []
    (Condition.leads_no (Question.leads_gap matching plain place.selector))
    fun middle _ gap => ⟨Machine.goes_refl setting middle, fun _ => gap rfl⟩
  refine (leads_bind _ _).mpr (missing.mono ?_ fun _ _ went => went.steps)
  rintro holds middle ⟨went, gap⟩
  cases holds with
  | false => exact ⟨went.steps, matching.goes went⟩
  | true =>
    have here := matching.goes went
    rw [if_pos rfl]
    refine (leads_bind _ _).mpr ((place.selector.leads_denoted here).mono ?_ fun _ _ same => same ▸ went.steps)
    rintro key later ⟨same, rfl⟩
    rw [same]
    refine (leads_bind _ _).mpr ((gap rfl).mono ?_ fun _ _ further => went.steps.trans further.steps)
    rintro subject last ⟨further, denotes, member, present, falsy⟩
    rw [← place.selector.denoted_later further.slots] at present ⊢
    have made := acts_create (here.goes further)
      (Machine.Acts.member fills (denotes.later further.slots) present falsy)
    exact made.mono (fun _ _ reached => ⟨(went.steps.trans further.steps).trans reached.1, reached.2⟩)
      fun _ _ reached => (went.steps.trans further.steps).trans reached

theorem run_acts (statement : Statement) (sited : statement.IsSited setting.compiling setting.root)
    (matching : frame.Matches setting m.journal) : Acts setting (statement.run setting.host frame) m := by
  cases sited with
  | assign sited => exact acts_assign matching _ sited
  | guardedBy asked sited =>
    refine acts_bind (Condition.runAll_goes _ asked matching) fun holds middle went => ?_
    cases holds with
    | true => exact acts_assign (matching.goes went) _ sited
    | false => exact acts_pure (matching.goes went)
  | name on => exact acts_name on matching
  | member fills plain => exact acts_member fills plain matching
  | checkObject sited =>
    refine acts_bind (Code.run_goes _ sited matching) fun value middle first => ?_
    exact acts_bind (goes_guarded value) fun _ last second => acts_pure ((matching.goes first).goes second)
  | checkName slot =>
    refine acts_bind (frame.goes_slot slot) fun key one first => ?_
    refine acts_bind (goes_answer _) fun _ two second => ?_
    refine acts_bind (goes_record rfl fun _ => rfl) fun _ three third => ?_
    exact acts_pure (matching.goes ((first.trans second).trans third))
  | checkFunction slot =>
    refine acts_bind (frame.goes_slot slot) fun callee one first => ?_
    refine acts_bind (goes_ask _) fun _ two second => ?_
    refine acts_bind (goes_record rfl fun _ => rfl) fun _ three third => ?_
    exact acts_pure (matching.goes ((first.trans second).trans third))
  | result sited =>
    refine acts_bind (Code.run_goes _ sited matching) fun value middle went => ?_
    have here := matching.goes went
    exact acts_pure ⟨here.locals, here.scope, here.slots⟩

private theorem runAll_acts (statements : List Statement)
    (sited : AreSited setting.compiling setting.root statements)
    (matching : frame.Matches setting m.journal) : Acts setting (runAll setting.host frame statements) m := by
  induction statements generalizing frame m with
  | nil => exact acts_pure matching
  | cons statement statements ih =>
    obtain ⟨head, tail⟩ := List.forall_mem_cons.mp sited
    refine (leads_bind _ _).mpr ((statement.run_acts head matching).mono ?_ fun _ _ steps => steps)
    rintro after middle ⟨steps, here⟩
    exact (ih tail here).mono (fun _ _ reached => ⟨steps.trans reached.1, reached.2⟩)
      fun _ _ reached => steps.trans reached

end Statement

private theorem Frame.matches_start (setting : Setting σ) (parameter : Value) (slots : Nat) :
    (Frame.start setting.locals setting.scope parameter slots).Matches setting [] where
  locals := rfl
  scope := rfl
  slots := fun _ _ present => (List.mem_replicate.mp (List.mem_of_getElem? present)).2

theorem Routine.run_acts (setting : Setting σ) {routine : Routine}
    (sited : Statement.AreSited setting.compiling setting.root routine.statements) (parameter : Value)
    (fresh : m.journal = []) :
    Relation.ReflTransGen (Machine.Acts setting) m
      ((routine.run setting.host setting.locals setting.scope parameter).run.run m).2 := by
  have matching := Frame.matches_start setting parameter routine.slots
  rw [← fresh] at matching
  have whole : (routine.run setting.host setting.locals setting.scope parameter).Leads m
      (fun _ last => Relation.ReflTransGen (Machine.Acts setting) m last)
      fun _ last => Relation.ReflTransGen (Machine.Acts setting) m last :=
    (leads_bind _ _).mpr ((Statement.runAll_acts routine.statements sited matching).imp fun _ _ reached => reached.1)
  obtain ⟨onValue, onFailure⟩ := leads_iff.mp whole
  cases done : ((routine.run setting.host setting.locals setting.scope parameter).run.run m).1 with
  | ok value => exact onValue value done
  | error failure => exact onFailure failure done

/-! What the steps leave alone. -/

private theorem Event.write?_of_deed {event : Event} (other : event.deed? = none) :
    event.write? = none := by
  cases event <;> first | rfl | cases other

namespace Node

variable {h : Heap} {root node : Node} {free : Nat}

/-- What is on the way to a target is a word, where all names of the tree are. -/
theorem OnTarget.isWorded (on : root.OnTarget h node free) (worded : root.IsWorded) : node.IsWorded := by
  induction on with
  | left occurs => exact isWorded_of_part _ _ (by simp [parts]) (occurs.isWorded worded)
  | @subject _ _ computed _ _ ih => exact isWorded_of_part _ _ (by cases computed <;> simp [parts]) ih

/-- There is a way to a target only where something is assigned. -/
theorem OnTarget.assigns (on : root.OnTarget h node free) : root.assigns ≠ false := by
  induction on with
  | left occurs => exact fun still => nomatch occurs.assigns_eq_false still
  | subject _ ih => exact ih

end Node

namespace Machine

theorem spares_made {container key : Value} {selector : Selector}
    (spares : ∀ after, (m.heap.alloc (.mapping .plain [])).2.setMember container key (.ref m.heap.size) = .ok after →
      m.heap.Spares after) : m.heap.Spares (m.made container selector key).heap := by
  unfold made wrote
  split
  · next after written => exact spares after written
  · exact Heap.spares_alloc _ _

/-- All steps but stores and calls of the host leave alone what is kept anywhere and is not false. -/
theorem Acts.spares (step : Acts setting m last) (worded : setting.root.IsWorded) :
    m.heap.Spares last.heap ∨ ∃ event, last.journal = event :: m.journal ∧
      ((∃ site, event.deed? = some (.store site)) ∨ ∃ slot, event.deed? = some (.call slot)) := by
  cases step with
  | note other => exact .inl (Heap.spares_refl _)
  | alloc built => exact .inl (Heap.spares_alloc _ _)
  | call slot called => exact .inr ⟨_, rfl, .inr ⟨slot, rfl⟩⟩
  | @store site place container value stores denotes =>
    exact .inr ⟨_, journal_wrote m _ _ _ _, .inl ⟨site, rfl⟩⟩
  | name on foreign absent =>
    have word := Value.position?_of_isName (on.isWorded worded)
    exact .inl (spares_made fun after written => Heap.spares_of_absent absent word written)
  | member fills denotes present falsy =>
    exact .inl (spares_made fun after written => Heap.spares_of_falsy present falsy written)

theorem Acts.write_eq_none (step : Acts setting m last) (still : setting.root.assigns = false) :
    ∀ event ∈ last.journal, event ∈ m.journal ∨ event.write? = none := by
  cases step with
  | note other =>
    intro event member
    rcases List.mem_cons.mp member with rfl | past
    · exact .inr (Event.write?_of_deed other)
    · exact .inl past
  | alloc built => exact fun event past => .inl past
  | call slot called =>
    intro event member
    rcases List.mem_cons.mp member with rfl | past
    · exact .inr rfl
    · exact .inl past
  | store stores denotes =>
    obtain ⟨occurs, _, _⟩ := stores
    cases occurs.assigns_eq_false still
  | name on foreign absent => exact absurd still on.assigns
  | member fills denotes present falsy =>
    obtain ⟨on, _, _⟩ := fills
    exact absurd still on.assigns

theorem write_eq_none (steps : Relation.ReflTransGen (Acts setting) m last) (still : setting.root.assigns = false)
    (none : ∀ event ∈ m.journal, event.write? = .none) : ∀ event ∈ last.journal, event.write? = .none := by
  induction steps with
  | refl => exact none
  | tail _ step ih => exact fun event member => (step.write_eq_none still event member).elim (ih event) id

end Machine

namespace Evaluator

variable {h : Heap} {body : Node} {text : Text} {evaluator : Evaluator}

private theorem outcome_acts (made : ofTree h (.program body) text = .ok evaluator)
    (written : body.isWritten) (use : Use)
    (host : Host σ) (locals scope : Value) (heap : Heap) (world : σ) :
    Relation.ReflTransGen (Machine.Acts ⟨host, h, use.body body, locals, scope⟩) ⟨heap, world, []⟩
      (evaluator.outcome host use locals scope heap world).2 := by
  obtain ⟨runs, assigns⟩ := routines_of_ofTree made
  cases use with
  | run =>
    obtain ⟨inner, compiled, same⟩ := Node.parts_routine runs
    have sited := (Node.becomes_of_compile body compiled).isSited written (.alone .root)
    have whole : Statement.AreSited h body evaluator.routine.statements := by
      rw [same]
      exact sited.statements.append (List.forall_mem_singleton.mpr (.result sited.code))
    exact Routine.run_acts ⟨host, h, body, locals, scope⟩ whole .null rfl
  | assign value =>
    unfold outcome assign
    cases assigner : evaluator.assigner with
    | none => exact .refl
    | some routine =>
      obtain ⟨inner, compiled, same⟩ := Node.parts_routine (assigns routine assigner)
      have sited := Node.isSited_assigner written compiled
      have whole : Statement.AreSited h (.assignment body .parameter) routine.statements := by
        rw [same]
        exact sited.statements.append (List.forall_mem_singleton.mpr (.result sited.code))
      exact Routine.run_acts ⟨host, h, .assignment body .parameter, locals, scope⟩ whole value rfl

/-- An expression writes only where its assignments aim. In each use of an evaluator, with any host and in any state,
every step is an event that is no deed, a new array or object, a call of the host, the store of an assignment, or the
creation of an empty object on the way to the target of one, under a name that neither the locals nor the scope have
or where the member is false at that moment. All steps but stores and calls leave alone what is kept anywhere and is
not false; and an expression without assignments writes nothing, even where it fails. -/
theorem writes_only_at_targets {strict : Bool} {marks : Nat} {leftover : Option Token}
    (read : parse strict marks text = .ok (.program body, leftover))
    (made : ofTree h (.program body) text = .ok evaluator) (use : Use) (host : Host σ) (locals scope : Value)
    (heap : Heap) (world : σ) :
    let setting : Setting σ := ⟨host, h, use.body body, locals, scope⟩
    let ended := evaluator.outcome host use locals scope heap world
    Relation.ReflTransGen (Machine.Acts setting) ⟨heap, world, []⟩ ended.2 ∧
      (∀ m last, Machine.Acts setting m last → m.heap.Spares last.heap ∨
        ∃ event, last.journal = event :: m.journal ∧
          ((∃ site, event.deed? = some (.store site)) ∨ ∃ slot, event.deed? = some (.call slot))) ∧
      ((use.body body).assigns = false → ∀ event ∈ ended.2.journal, event.write? = none) := by
  intro setting ended
  obtain ⟨_, same, written⟩ := isWritten_of_parse read
  cases same
  obtain ⟨_, same, words⟩ := isWorded_of_parse read
  cases same
  have worded : (use.body body).IsWorded := by
    cases use with
    | run => exact words
    | assign value => exact ⟨words, trivial⟩
  have steps := outcome_acts made written use host locals scope heap world
  refine ⟨steps, fun m last step => step.spares worded, fun still => ?_⟩
  exact Machine.write_eq_none steps still fun _ member => nomatch member

/-- A member is assigned in an object that is made for it. -/
theorem writes_only_at_targets_of_member :
    let source := Text.of "a.b = f(1)"
    let heap : Heap := ⟨#[.mapping .plain (named [("f", .ref 1)]), .function (Text.of "f") .first []]⟩
    ∃ body leftover evaluator, parse true 0 source = .ok (.program body, leftover) ∧
      ofTree Heap.empty (.program body) source = .ok evaluator ∧
      let setting : Setting World := ⟨Host.standard 1, Heap.empty, body, .null, .ref 0⟩
      let ended := evaluator.outcome (Host.standard 1) .run .null (.ref 0) heap .start
      ended.1 = .ok (.int 1) ∧ Relation.ReflTransGen (Machine.Acts setting) ⟨heap, .start, []⟩ ended.2 := by
  intro source heap
  have ran : (parse true 0 source).toOption.any fun found =>
      (ofTree Heap.empty found.1 source).toOption.any fun evaluator =>
        decide ((evaluator.outcome (Host.standard 1) .run .null (.ref 0) heap .start).1 = .ok (.int 1)) := by
    decide +kernel
  obtain ⟨⟨tree, leftover⟩, read, ran⟩ := exists_eq_ok ran
  obtain ⟨body, rfl, -⟩ := isWritten_of_parse read
  obtain ⟨evaluator, made, ran⟩ := exists_eq_ok ran
  exact ⟨body, leftover, evaluator, read, made, of_decide_eq_true ran,
    (writes_only_at_targets read made .run (Host.standard 1) .null (.ref 0) heap .start).1⟩

end Evaluator

end GuardedExpr

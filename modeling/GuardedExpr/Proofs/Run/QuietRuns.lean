import GuardedExpr.Proofs.Heap.ClosedWrites
import GuardedExpr.Proofs.Run.MissingPlaces

/-!
What quiet code and its statements do to a closed heap. Code only adds arrays and objects; the statements of
the left side of an assignment also put empty objects into members, each of which is in the journal. Nothing
that a frame holds ever refers to a container that is not there.
-/

namespace GuardedExpr

variable {σ : Type} {host : Host σ} {frame : Frame} {m middle last : Machine σ} {heap h after further : Heap}

structure Machine.Builds (m last : Machine σ) : Prop where
  grows : m.heap.Grows last.heap
  closed : last.heap.IsClosed
  created : Event.creations last.journal = Event.creations m.journal

theorem Machine.builds_refl (closed : m.heap.IsClosed) : m.Builds m :=
  ⟨.refl _, closed, rfl⟩

theorem Machine.Builds.trans (first : m.Builds middle) (second : middle.Builds last) : m.Builds last :=
  ⟨first.grows.trans second.grows, second.closed, second.created.trans first.created⟩

theorem Machine.builds_note (closed : m.heap.IsClosed) (event : Event) (other : event.creation? = none) :
    m.Builds (m.note event) :=
  ⟨.refl _, closed, Event.creations_cons other m.journal⟩

section Primitives

variable (closed : m.heap.IsClosed)

include closed

theorem leads_has_builds (container : Value) (name : Text) :
    (Run.has container name : Run σ Bool).Leads m (fun _ last => m.Builds last) fun _ _ => True :=
  (Run.leads_has container name).mpr ⟨fun _ _ => Machine.builds_note closed _ rfl, fun _ _ => trivial⟩

private theorem leads_read_builds {container : Value} (below : container.isBelow m.heap.size)
    (selector : Selector)
    (key : Value) : (Run.read container selector key : Run σ Value).Leads m
      (fun value last => m.Builds last ∧ value.isBelow last.heap.size) fun _ _ => True :=
  (Run.leads_read container selector key).mpr
    ⟨fun _ found => ⟨Machine.builds_note closed _ rfl, closed.getMember below found⟩, fun _ _ => trivial⟩

theorem leads_alloc_builds {cell : Cell} (below : cell.isBelow m.heap.size) :
    (Run.alloc cell : Run σ Value).Leads m (fun value last => m.Builds last ∧ value.isBelow last.heap.size)
      fun _ _ => True := by
  refine (Run.leads_alloc cell).mpr ⟨⟨m.heap.grows_alloc cell, closed.alloc below, rfl⟩, ?_⟩
  refine decide_eq_true ?_
  show m.heap.size < (m.heap.alloc cell).2.size
  rw [Heap.size_alloc]
  exact Nat.lt_succ_self _

theorem leads_guarded_builds {value : Value} (below : value.isBelow m.heap.size) :
    (Run.guarded value : Run σ Value).Leads m (fun passed last => m.Builds last ∧ passed.isBelow last.heap.size)
      fun _ _ => True :=
  (Run.leads_guarded value).mpr ⟨fun _ => ⟨Machine.builds_refl closed, below⟩, fun _ _ => trivial⟩

variable (inside : frame.Inside m.heap.size)

include inside

theorem leads_slot_builds (slot : Nat) :
    (frame.slot slot : Run σ Value).Leads m (fun value last => m.Builds last ∧ value.isBelow last.heap.size)
      fun _ _ => True :=
  Frame.leads_slot.mpr ⟨fun value held =>
    ⟨Machine.builds_refl closed, inside.slots value (List.mem_of_getElem? held)⟩, fun _ => trivial⟩

theorem leads_key_builds (selector : Selector) :
    (selector.key frame : Run σ Value).Leads m (fun value last => m.Builds last ∧ value.isBelow last.heap.size)
      fun _ _ => True := by
  cases selector with
  | name field => exact ⟨Machine.builds_refl closed, rfl⟩
  | slot index => exact leads_slot_builds closed inside index

end Primitives

namespace Code

mutual

theorem leads_run_builds {m : Machine σ} (closed : m.heap.IsClosed) (inside : frame.Inside m.heap.size) :
    (code : Code) → code.isQuiet →
      (code.run host frame).Leads m (fun value last => m.Builds last ∧ value.isBelow last.heap.size)
        fun _ _ => True
  | .locals, _ => ⟨Machine.builds_refl closed, inside.locals⟩
  | .scope, _ => ⟨Machine.builds_refl closed, inside.scope⟩
  | .parameter, _ => ⟨Machine.builds_refl closed, inside.parameter⟩
  | .literal value _, scalar => by
    exact ⟨Machine.builds_refl closed, Value.isBelow_of_isScalar scalar _⟩
  | .slot index, _ => leads_slot_builds closed inside index
  | .owner name, _ => by
    apply Run.Leads.bind (leads_has_builds closed frame.locals name)
    intro found last step
    cases found with
    | true => exact ⟨step, Value.isBelow_mono step.grows.grown inside.locals⟩
    | false => exact ⟨step, Value.isBelow_mono step.grows.grown inside.scope⟩
  | .guarded code, quiet => by
    apply Run.Leads.bind (leads_run_builds closed inside code quiet)
    rintro value middle ⟨step, below⟩
    apply (leads_guarded_builds step.closed below).imp
    rintro passed last ⟨rest, found⟩
    exact ⟨step.trans rest, found⟩
  | .member container selector, quiet => by
    apply Run.Leads.bind (leads_run_builds closed inside container quiet)
    rintro subject middle ⟨step, below⟩
    apply Run.Leads.bind (leads_key_builds step.closed (inside.mono step.grows.grown) selector)
    rintro key further ⟨second, _⟩
    apply (leads_read_builds second.closed (Value.isBelow_mono second.grows.grown below) selector key).imp
    rintro value last ⟨third, found⟩
    exact ⟨(step.trans second).trans third, found⟩
  | .array items, quiet => by
    apply Run.Leads.bind (leads_runAll_builds closed inside items quiet)
    rintro values middle ⟨step, below⟩
    have noted := Machine.builds_note step.closed (.built values) rfl
    have cell : (Cell.list values).isBelow middle.heap.size := List.all_eq_true.mpr below
    rw [Run.leads_bind, Run.leads_record]
    apply (leads_alloc_builds noted.closed cell).imp
    rintro value last ⟨rest, found⟩
    exact ⟨(step.trans noted).trans rest, found⟩
  | .object keys values, quiet => by
    obtain ⟨scalars, quiet⟩ := Bool.and_eq_true_iff.mp quiet
    apply Run.Leads.bind (leads_runEntries_builds closed inside keys values [] scalars quiet rfl)
    rintro entries middle ⟨step, below⟩
    have cell : (Cell.mapping .plain entries).isBelow middle.heap.size := below
    apply (leads_alloc_builds step.closed cell).imp
    rintro value last ⟨rest, found⟩
    exact ⟨step.trans rest, found⟩

theorem leads_runAll_builds {m : Machine σ} (closed : m.heap.IsClosed) (inside : frame.Inside m.heap.size) :
    (codes : List Code) → areQuiet codes →
      (runAll host frame codes).Leads m
        (fun values last => m.Builds last ∧ ∀ value ∈ values, value.isBelow last.heap.size) fun _ _ => True
  | [], _ => ⟨Machine.builds_refl closed, nofun⟩
  | code :: codes, quiet => by
    obtain ⟨head, tail⟩ := Bool.and_eq_true_iff.mp quiet
    apply Run.Leads.bind (leads_run_builds closed inside code head)
    rintro value middle ⟨step, below⟩
    apply Run.Leads.bind (leads_runAll_builds step.closed (inside.mono step.grows.grown) codes tail)
    rintro values last ⟨rest, each⟩
    exact ⟨step.trans rest, List.forall_mem_cons.mpr ⟨Value.isBelow_mono rest.grows.grown below, each⟩⟩

theorem leads_runEntries_builds {m : Machine σ} (closed : m.heap.IsClosed)
    (inside : frame.Inside m.heap.size) :
    (keys : List (Value × Text)) → (codes : List Code) → (entries : Entries) →
      keys.all (·.1.isScalar) → areQuiet codes → entries.areBelow m.heap.size →
        (runEntries host frame keys codes entries).Leads m
          (fun made last => m.Builds last ∧ made.areBelow last.heap.size) fun _ _ => True
  | [], _, _, _, _, below => by
    simp only [runEntries, Run.leads_pure]
    exact ⟨Machine.builds_refl closed, below⟩
  | _ :: _, [], _, _, _, below => by
    simp only [runEntries, Run.leads_pure]
    exact ⟨Machine.builds_refl closed, below⟩
  | key :: keys, code :: codes, entries, scalars, quiet, below => by
    obtain ⟨scalar, scalars⟩ := Bool.and_eq_true_iff.mp scalars
    obtain ⟨head, tail⟩ := Bool.and_eq_true_iff.mp quiet
    obtain ⟨hashed, hashes, plain⟩ := Heap.key?_of_isScalar scalar
    apply Run.Leads.bind (leads_run_builds closed inside code head)
    rintro value middle ⟨step, found⟩
    have noted := Machine.builds_note step.closed (.built [value]) rfl
    have keyBelow := Value.isBelow_of_isScalar scalar middle.heap.size
    have set := Entries.areBelow_set (Entries.areBelow_mono step.grows.grown below) (plain _) keyBelow found
    rw [Run.leads_bind, Run.leads_record, Run.leads_bind, Run.leads_get]
    simp only [hashes]
    apply (leads_runEntries_builds noted.closed (inside.mono step.grows.grown) keys codes _ scalars tail
      set).imp
    rintro made last ⟨rest, all⟩
    exact ⟨(step.trans noted).trans rest, all⟩

end

end Code

/-- What holds between the statements of a left side: the heap is closed, the frame holds nothing outside
it, and the journal tells of all objects that were put into members since the first heap. -/
structure Frame.Filling (h : Heap) (frame : Frame) (m : Machine σ) : Prop where
  closed : m.heap.IsClosed
  inside : frame.Inside m.heap.size
  filled : h.Filled (Event.creations m.journal) m.heap

theorem Frame.Filling.build (filling : frame.Filling h m) (builds : m.Builds last) : frame.Filling h last where
  closed := builds.closed
  inside := filling.inside.mono builds.grows.grown
  filled := by
    rw [builds.created]
    exact filling.filled.grow builds.grows

/-- What a statement does to the frame and the machine. Containers change only where members may be
created. -/
structure Frame.Advances (h : Heap) (create : Bool) (frame after : Frame) (m last : Machine σ) : Prop where
  filling : after.Filling h last
  agrees : frame.Agrees 0 after
  builds : create = false → m.Builds last

variable {create : Bool}

theorem Frame.Filling.advance (filling : frame.Filling h m) (builds : m.Builds last) :
    frame.Advances h create frame m last :=
  ⟨filling.build builds, .refl 0 frame, fun _ => builds⟩

theorem Frame.Advances.trans {ending : Frame} {after : Frame}
    (first : frame.Advances h create after m middle) (second : after.Advances h create ending middle last) :
    frame.Advances h create ending m last :=
  ⟨second.filling, first.agrees.trans second.agrees,
    fun calm => (first.builds calm).trans (second.builds calm)⟩

theorem Frame.Filling.fill (filling : frame.Filling h m) {value : Value} (below : value.isBelow m.heap.size)
    (slot : Nat) : frame.Advances h create (frame.fill slot value) m (m.note (.kept slot value)) := by
  have noted := Machine.builds_note filling.closed (.kept slot value) rfl
  have still := filling.build noted
  refine ⟨⟨still.closed, ⟨still.inside.locals, still.inside.scope, still.inside.parameter, ?_⟩, still.filled⟩,
    (frame.agrees_fill slot value).mono (Nat.zero_le _), fun _ => noted⟩
  intro held member
  rcases List.mem_or_eq_of_mem_set member with old | new
  · exact filling.inside.slots held old
  · exact new ▸ below

section Statements

variable (filling : frame.Filling h m)

include filling

private theorem leads_create_fills {container key : Value} (below : key.isBelow m.heap.size)
    (lacks : m.heap.Lacks container key) (selector : Selector) :
    (Run.create container selector key : Run σ Unit).Leads m (fun _ last => frame.Filling h last)
      fun _ _ => True := by
  have room : m.heap.size ≤ (m.heap.alloc (.mapping .plain [])).2.size := (m.heap.grows_alloc _).grown
  have closed : (m.heap.alloc (.mapping .plain [])).2.IsClosed := filling.closed.alloc rfl
  have made : (Value.ref m.heap.size).isBelow (m.heap.alloc (.mapping .plain [])).2.size := by
    rw [Heap.size_alloc]
    exact decide_eq_true (Nat.lt_succ_self _)
  refine (Run.leads_bind _ _).mpr ((Run.leads_alloc _).mpr ((Run.leads_write _ _ _ _).mpr
    ⟨fun after written => ?_, fun _ _ => trivial⟩))
  obtain ⟨still, size⟩ := closed.setMember (Value.isBelow_mono room below) made written
  exact ⟨still, filling.inside.mono (size ▸ room), filling.filled.create lacks written⟩

theorem Action.leads_run_fills (action : Action) (quiet : action.isQuiet) :
    (action.run host frame).Leads m (fun after last => frame.Advances h create after m last)
      fun _ _ => True := by
  cases action with
  | assign slot code =>
    apply Run.Leads.bind (code.leads_run_builds filling.closed filling.inside quiet)
    rintro value middle ⟨step, below⟩
    have advanced : frame.Advances h create frame m middle := filling.advance step
    unfold Frame.setSlot
    rw [Run.leads_ite]
    split
    · exact advanced.trans (advanced.filling.fill below slot)
    · trivial
  | create container selector => cases quiet

/-- An empty object is put into a member that the container lacks when its code is run. -/
theorem Action.leads_create_gap {container : Code} (quiet : container.isQuiet) {selector : Selector}
    {key : Value} (below : key.isBelow m.heap.size)
    (keyed : (selector.key frame).Leads m (fun found last => last = m ∧ found = key) fun _ _ => True)
    (lacking : (container.run host frame).Leads m (fun subject last => last.heap.Lacks subject key)
      fun _ _ => True) :
    ((Action.create container selector).run host frame).Leads m
      (fun after last => frame.Advances h true after m last) fun _ _ => True := by
  apply Run.Leads.bind keyed
  rintro _ _ ⟨rfl, rfl⟩
  have builds := (container.leads_run_builds filling.closed filling.inside quiet).and lacking
  apply Run.Leads.bind (builds.mono (fun _ _ reached => reached) fun _ _ _ => trivial)
  rintro subject further ⟨⟨step, _⟩, lacks⟩
  have inside := Value.isBelow_mono step.grows.grown below
  apply Run.Leads.bind (leads_create_fills (filling.build step) inside lacks selector)
  intro _ last filled
  refine ⟨filled, .refl 0 frame, fun kept => ?_⟩
  cases kept

theorem Question.leads_run_builds (question : Question) (quiet : question.isQuiet) :
    (question.run host frame).Leads m (fun _ last => m.Builds last) fun _ _ => True := by
  cases question with
  | has container name =>
    apply Run.Leads.bind (container.leads_run_builds filling.closed filling.inside quiet)
    rintro subject middle ⟨step, _⟩
    exact (leads_has_builds step.closed subject name).imp fun _ _ rest => step.trans rest
  | holds code =>
    apply Run.Leads.bind (code.leads_run_builds filling.closed filling.inside quiet)
    rintro value middle ⟨step, _⟩
    exact (Run.leads_ask _).mpr ⟨fun _ _ => step, fun _ _ => trivial⟩

omit filling in
theorem Condition.leads_runAll_builds {m : Machine σ} (filling : frame.Filling h m)
    (conditions : List Condition) (quiet : conditions.all (·.question.isQuiet)) :
    (Condition.runAll host frame conditions).Leads m (fun _ last => m.Builds last) fun _ _ => True := by
  induction conditions generalizing m with
  | nil => exact Machine.builds_refl filling.closed
  | cons condition conditions hypothesis =>
    obtain ⟨head, tail⟩ := Bool.and_eq_true_iff.mp quiet
    have first : (condition.run host frame).Leads m (fun _ last => m.Builds last) fun _ _ => True :=
      (condition.question.leads_run_builds filling head).bind fun _ _ step => step
    apply Run.Leads.bind first
    intro holds middle step
    cases holds with
    | true => exact (hypothesis (filling.build step) tail).imp fun _ _ rest => step.trans rest
    | false => exact step

/-- A member is created only where it is missing or false. -/
theorem Statement.leads_run_gap {statement : Statement} (gap : statement.FillsGap) :
    (statement.run host frame).Leads m (fun after last => frame.Advances h true after m last)
      fun _ _ => True := by
  cases gap with
  | name name =>
    let conditions := [(Question.has .locals name).no, (Question.holds .scope).yes]
    have asked (later : Machine σ) : ((Question.has .scope name).run host frame).Leads later
        (fun answer last => answer = false → last.heap.hasMember frame.scope name = .ok false)
        fun _ _ => True :=
      (Run.leads_has _ _).mpr ⟨fun answer found denied => denied ▸ found, fun _ _ => trivial⟩
    have builds : (Condition.runAll host frame (conditions ++ [(Question.has .scope name).no])).Leads m
        (fun _ last => m.Builds last) fun _ _ => True := Condition.leads_runAll_builds filling _ rfl
    -- Only the last condition matters for what is missing; the others have to leave the heap as it is.
    have missing := builds.and (Condition.leads_runAll_denied asked conditions)
    apply Run.Leads.bind (missing.mono (fun _ _ reached => reached) fun _ _ _ => trivial)
    rintro holds middle ⟨step, found⟩
    have advanced : frame.Advances h true frame m middle := filling.advance step
    cases holds with
    | false => exact advanced
    | true =>
      have lacking : (Code.scope.run host frame).Leads middle
          (fun subject last => last.heap.Lacks subject (.text name)) fun _ _ => True :=
        .absent rfl (found rfl)
      have created : ((Action.create .scope (.name name)).run host frame).Leads middle
          (fun after last => frame.Advances h true after middle last) fun _ _ => True :=
        Action.leads_create_gap advanced.filling rfl rfl ⟨rfl, rfl⟩ lacking
      exact created.imp fun _ _ rest => advanced.trans rest
  | @member container plain selector =>
    have quiet := Code.isQuiet_of_isPlain container plain
    have builds : (Condition.runAll host frame [(Question.holds (.member container selector)).no]).Leads m
        (fun _ last => m.Builds last) fun _ _ => True :=
      Condition.leads_runAll_builds filling _ (by simp [Question.no, Question.isQuiet, Code.isQuiet, quiet])
    have missing := builds.and
      (Condition.leads_denied (Question.leads_lacks filling.closed filling.inside plain selector))
    apply Run.Leads.bind (missing.mono (fun _ _ reached => reached) fun _ _ _ => trivial)
    rintro holds middle ⟨step, found⟩
    have advanced : frame.Advances h true frame m middle := filling.advance step
    cases holds with
    | false => exact advanced
    | true =>
      obtain ⟨key, below, keyed, lacking⟩ := found rfl
      have created := Action.leads_create_gap advanced.filling quiet
        (Value.isBelow_mono step.grows.grown below) (keyed middle) (lacking middle step.grows)
      exact created.imp fun _ _ rest => advanced.trans rest

private theorem Statement.leads_run_quiet (statement : Statement) (quiet : statement.isQuiet) :
    (statement.run host frame).Leads m (fun after last => frame.Advances h create after m last)
      fun _ _ => True := by
  cases statement with
  | perform action => exact action.leads_run_fills filling quiet
  | guardedBy conditions action =>
    obtain ⟨asked, performed⟩ := Bool.and_eq_true_iff.mp quiet
    apply Run.Leads.bind (Condition.leads_runAll_builds filling conditions asked)
    intro holds middle step
    have advanced : frame.Advances h create frame m middle := filling.advance step
    cases holds with
    | true => exact (action.leads_run_fills advanced.filling performed).imp fun _ _ rest => advanced.trans rest
    | false => exact advanced
  | checkObject code =>
    apply Run.Leads.bind (code.leads_run_builds filling.closed filling.inside quiet)
    rintro value middle ⟨step, below⟩
    apply Run.Leads.bind (leads_guarded_builds step.closed below)
    rintro passed last ⟨rest, _⟩
    exact filling.advance (step.trans rest)
  | checkName slot =>
    apply Run.Leads.bind (leads_slot_builds filling.closed filling.inside slot)
    rintro key middle ⟨step, _⟩
    refine (Run.leads_bind _ _).mpr ((Run.leads_answer _).mpr ⟨fun _ _ => ?_, fun _ _ => trivial⟩)
    exact filling.advance (step.trans (Machine.builds_note step.closed (.cleared slot key) rfl))
  | checkFunction slot =>
    apply Run.Leads.bind (leads_slot_builds filling.closed filling.inside slot)
    rintro callee middle ⟨step, _⟩
    refine (Run.leads_bind _ _).mpr ((Run.leads_ask _).mpr ⟨fun _ _ => ?_, fun _ _ => trivial⟩)
    exact filling.advance (step.trans (Machine.builds_note step.closed (.admitted slot callee) rfl))
  | result code =>
    apply Run.Leads.bind (code.leads_run_builds filling.closed filling.inside quiet)
    rintro value middle ⟨step, below⟩
    have still := filling.build step
    exact ⟨⟨still.closed, ⟨still.inside.locals, still.inside.scope, still.inside.parameter, still.inside.slots⟩,
      still.filled⟩, ⟨rfl, rfl, rfl, fun _ _ => rfl⟩, fun _ => step⟩

theorem Statement.leads_run_fills (statement : Statement)
    (quiet : statement.isQuiet ∨ create ∧ statement.FillsGap) :
    (statement.run host frame).Leads m (fun after last => frame.Advances h create after m last)
      fun _ _ => True := by
  rcases quiet with quiet | ⟨rfl, gap⟩
  · exact statement.leads_run_quiet filling quiet
  · exact statement.leads_run_gap filling gap

omit filling in
/-- Statements of quiet code leave a heap behind that differs from the first one in what the journal tells. -/
theorem Statement.leads_runAll_fills {frame : Frame} {m : Machine σ} (filling : frame.Filling h m)
    (statements : List Statement) (quiet : Statement.AreQuiet create statements) :
    (Statement.runAll host frame statements).Leads m (fun after last => frame.Advances h create after m last)
      fun _ _ => True := by
  induction statements generalizing frame m with
  | nil => exact filling.advance (Machine.builds_refl filling.closed)
  | cons statement statements hypothesis =>
    obtain ⟨head, tail⟩ := List.forall_mem_cons.mp quiet
    apply Run.Leads.bind (statement.leads_run_fills filling head)
    intro after middle first
    exact (hypothesis first.filling tail).imp fun _ _ rest => first.trans rest

end Statements

end GuardedExpr

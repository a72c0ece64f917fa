import GuardedExpr.Host.Standard
import GuardedExpr.Proofs.Run.CodeYields
import GuardedExpr.Proofs.Run.RunFaults

/-!
Runs of tame code. Every primitive of a run accounts for its failures where it fails, and parts that do are put
together to larger ones, up to the run of an evaluator. Where nothing is called, that is all; a call may fail for
whatever the host does.
-/

namespace GuardedExpr

variable {σ α β : Type} {host : Host σ} {calling : Bool}

def Machine.Raises (host : Host σ) (m : Machine σ) (failure : Error) : Prop :=
  ∃ slot callee arguments past heap world, m.journal = .invoked slot callee arguments :: past ∧
    host.call callee arguments heap world = (.error failure, m.heap, m.world)

/-- A failure has a cause in the run itself, or, where there may be calls, in one of them. -/
def Machine.Explains (host : Host σ) (calling : Bool) (m : Machine σ) (failure : Error) : Prop :=
  m.Accounts failure ∨ calling ∧ m.Raises host failure

namespace Run

def Settles (host : Host σ) (calling : Bool) (part : Run σ α) (good : α → Prop) : Prop :=
  ∀ m, part.Leads m (fun value _ => good value) fun failure last => last.Explains host calling failure

variable {good : α → Prop}

theorem settles_pure {value : α} (right : good value) : Settles host calling (pure value) good :=
  fun _ => (leads_pure value).mpr right

private theorem settles_reported {failure : Error} (reported : failure.isReported) :
    Settles host calling (throw failure : Run σ α) good :=
  fun _ => (leads_throw failure).mpr (.inl (.inl reported))

theorem settles_record (event : Event) : Settles host calling (record event) fun _ => True :=
  fun _ => (leads_record event).mpr trivial

theorem settles_get : Settles host calling (get : Run σ (Machine σ)) fun _ => True :=
  fun _ => leads_get.mpr trivial

theorem settles_alloc (cell : Cell) : Settles host calling (alloc cell) fun _ => True :=
  fun _ => (leads_alloc cell).mpr trivial

theorem settles_ask {question : Heap → Except Error α}
    (wrong : ∀ (m : Machine σ) failure, question m.heap = .error failure → m.Accounts failure) :
    Settles host calling (ask question) fun _ => True :=
  fun m => (leads_ask question).mpr ⟨fun _ _ => trivial, fun failure failed => .inl (wrong m failure failed)⟩

theorem settles_isTruthy (value : Value) :
    Settles host calling (ask fun h => h.isTruthy value : Run σ Bool) fun _ => True :=
  settles_ask fun _ _ failed => Machine.accounts_of_endless (Heap.isTruthy_eq_error failed)

private theorem settles_function (callee : Value) :
    Settles host calling (ask fun h => Guard.function h callee : Run σ Unit) fun _ => True := by
  refine settles_ask fun m failure failed => ?_
  rcases Guard.function_eq_error failed with reported | endless
  · exact .inl reported
  · exact Machine.accounts_of_endless endless

theorem settles_guarded (value : Value) : Settles host calling (guarded value : Run σ Value) fun _ => True := by
  refine fun m => (leads_guarded value).mpr ⟨fun _ => trivial, fun failure failed => .inl ?_⟩
  rcases Guard.object_eq_error failed with reported | endless
  · exact .inl reported
  · exact Machine.accounts_of_endless endless

private theorem settles_memberName (key : Value) :
    Settles host calling (answer (Guard.memberName key) : Run σ Unit) fun _ => True :=
  fun _ => (leads_answer _).mpr
    ⟨fun _ _ => trivial, fun _ failed => .inl (.inl (Guard.memberName_eq_error failed))⟩

theorem settles_has (container : Value) (name : Text) :
    Settles host calling (has container name : Run σ Bool) fun _ => True :=
  fun _ => (leads_has container name).mpr
    ⟨fun _ _ => trivial, fun _ failed => .inl (Machine.accounts_of_endless (Heap.hasMember_eq_error failed))⟩

private theorem settles_read (container : Value) (selector : Selector) (key : Value) :
    Settles host calling (read container selector key : Run σ Value) fun _ => True :=
  fun _ => (leads_read container selector key).mpr
    ⟨fun _ _ => trivial, fun _ failed => .inl (Machine.accounts_of_position rfl (Heap.getMember_eq_error failed))⟩

theorem settles_write {event : Event} {container key value : Value}
    (writes : event.write? = some (container, key, value)) (used : event.key? = some key) :
    Settles host calling (write event container key value : Run σ Unit) fun _ => True :=
  fun _ => (leads_write event container key value).mpr
    ⟨fun _ _ => trivial, fun _ failed => .inl (Machine.accounts_of_setMember writes used failed)⟩

private theorem settles_invoke (may : calling) (slot : Nat) (callee : Value)
    (arguments : List Value) :
    Settles host calling (invoke host slot callee arguments) fun _ => True := by
  refine fun m => (leads_invoke host slot callee arguments).mpr ⟨fun _ _ => trivial, fun failure failed => .inr ?_⟩
  exact ⟨may, slot, callee, arguments, m.journal, m.heap, m.world, rfl, Prod.ext failed rfl⟩

theorem settles_bind {part : Run σ β} {next : β → Run σ α} {between : β → Prop}
    (first : Settles host calling part between)
    (rest : ∀ value, between value → Settles host calling (next value) good) :
    Settles host calling (part >>= next) good :=
  fun m => (first m).bind fun value last right => rest value right last

theorem settles_ite {condition : Prop} [Decidable condition] {yes no : Run σ α}
    (onYes : condition → Settles host calling yes good) (onNo : ¬ condition → Settles host calling no good) :
    Settles host calling (if condition then yes else no) good := by
  split
  · next holds => exact onYes holds
  · next fails => exact onNo fails

private theorem settles_create (container key : Value) (selector : Selector) :
    Settles host calling (create container selector key : Run σ Unit) fun _ => True :=
  settles_bind (settles_alloc _) fun _ _ => settles_write rfl rfl

end Run

open Run

variable {frame : Frame}

theorem Frame.settles_slot {index : Nat} (room : index < frame.slots.length) :
    Settles host calling (frame.slot index : Run σ Value) fun _ => True := by
  refine fun m => Frame.leads_slot.mpr ⟨fun _ _ => trivial, fun missing => ?_⟩
  exact absurd (List.getElem?_eq_none_iff.mp missing) (Nat.not_le_of_lt room)

def Frame.Keeps (frame after : Frame) : Prop :=
  after.slots.length = frame.slots.length

private theorem Frame.settles_setSlot {index : Nat} (room : index < frame.slots.length)
    (value : Value) :
    Settles host calling (frame.setSlot index value : Run σ Frame) frame.Keeps :=
  fun _ => (Frame.leads_setSlot room).mpr List.length_set

theorem Selector.settles_key {selector : Selector} (tame : selector.isTame frame.slots.length) :
    Settles host calling (selector.key frame : Run σ Value) fun _ => True := by
  cases selector with
  | name field => exact settles_pure trivial
  | slot index => exact Frame.settles_slot (of_decide_eq_true tame)

namespace Code

mutual

theorem settles_run : (code : Code) → code.isTame calling frame.slots.length →
    Settles host calling (code.run host frame) fun _ => True
  | .locals, _ | .scope, _ | .parameter, _ | .literal _ _, _ => settles_pure trivial
  | .slot _, tame => Frame.settles_slot (of_decide_eq_true tame)
  | .owner name, _ => settles_bind (settles_has _ name) fun _ _ =>
      settles_ite (fun _ => settles_pure trivial) fun _ => settles_pure trivial
  | .array items, tame => settles_bind (settles_runAll items tame) fun _ _ =>
      settles_bind (settles_record _) fun _ _ => settles_alloc _
  | .object keys values, tame => by
    obtain ⟨scalar, each⟩ := Bool.and_eq_true_iff.mp tame
    exact settles_bind (settles_runEntries keys values [] scalar each) fun _ _ => settles_alloc _
  | .member container selector, tame => by
    obtain ⟨inner, keyed⟩ := Bool.and_eq_true_iff.mp tame
    apply settles_bind (settles_run container inner)
    intro subject _
    exact settles_bind (Selector.settles_key keyed) fun key _ => settles_read subject selector key
  | .guarded code, tame => settles_bind (settles_run code tame) fun value _ => settles_guarded value
  | .call callee arguments, tame => by
    obtain ⟨both, each⟩ := Bool.and_eq_true_iff.mp tame
    obtain ⟨may, room⟩ := Bool.and_eq_true_iff.mp both
    apply settles_bind (Frame.settles_slot (of_decide_eq_true room))
    intro target _
    apply settles_bind (settles_isTruthy target)
    intro truthy _
    refine settles_ite (fun _ => settles_pure trivial) fun _ => settles_bind settles_get fun current _ => ?_
    refine settles_ite (fun _ => settles_reported rfl) fun _ => ?_
    apply settles_bind (settles_runAll arguments each)
    intro values _
    exact settles_bind (settles_invoke may callee target values) fun given _ => settles_guarded given
  | .store site container selector value, tame => by
    obtain ⟨place, written⟩ := Bool.and_eq_true_iff.mp tame
    obtain ⟨inner, keyed⟩ := Bool.and_eq_true_iff.mp place
    apply settles_bind (settles_run container inner)
    intro subject _
    apply settles_bind (Selector.settles_key keyed)
    intro key _
    apply settles_bind (settles_run value written)
    intro stored _
    exact settles_bind (settles_write rfl rfl) fun _ _ => settles_pure trivial

theorem settles_runAll : (codes : List Code) → areTame calling frame.slots.length codes →
    Settles host calling (runAll host frame codes) fun _ => True
  | [], _ => settles_pure trivial
  | code :: codes, tame => by
    obtain ⟨first, others⟩ := Bool.and_eq_true_iff.mp tame
    exact settles_bind (settles_run code first) fun _ _ =>
      settles_bind (settles_runAll codes others) fun _ _ => settles_pure trivial

theorem settles_runEntries : (keys : List (Value × Text)) → (codes : List Code) → (entries : Entries) →
    keys.all (·.1.isScalar) → areTame calling frame.slots.length codes →
      Settles host calling (runEntries host frame keys codes entries) fun _ => True
  | key :: keys, code :: codes, entries, scalar, tame => by
    obtain ⟨here, elsewhere⟩ := Bool.and_eq_true_iff.mp scalar
    obtain ⟨first, others⟩ := Bool.and_eq_true_iff.mp tame
    obtain ⟨hashed, hashes, _⟩ := Heap.key?_of_isScalar here
    apply settles_bind (settles_run code first)
    intro value _
    apply settles_bind (settles_record _)
    intro _ _
    apply settles_bind settles_get
    intro current _
    -- A scalar has its key on every heap, whatever the value before it has done to this one.
    rw [hashes current.heap]
    exact settles_runEntries keys codes _ elsewhere others
  | [], [], _, _, _ | [], _ :: _, _, _, _ | _ :: _, [], _, _, _ => settles_pure trivial

end

end Code

theorem Question.settles_run (question : Question) (tame : question.isTame calling frame.slots.length) :
    Settles host calling (question.run host frame) fun _ => True := by
  cases question with
  | has container name => exact settles_bind (container.settles_run tame) fun value _ => settles_has value name
  | holds code => exact settles_bind (code.settles_run tame) fun value _ => settles_isTruthy value

theorem Condition.settles_runAll (conditions : List Condition)
    (tame : conditions.all (·.question.isTame calling frame.slots.length)) :
    Settles host calling (Condition.runAll host frame conditions) fun _ => True := by
  induction conditions with
  | nil => exact settles_pure trivial
  | cons condition conditions hypothesis =>
    obtain ⟨first, others⟩ := Bool.and_eq_true_iff.mp tame
    have asked : Settles host calling (condition.run host frame) fun _ => True :=
      settles_bind (condition.question.settles_run first) fun _ _ => settles_pure trivial
    exact settles_bind asked fun _ _ => settles_ite (fun _ => hypothesis others) fun _ => settles_pure trivial

theorem Action.settles_run (action : Action) (tame : action.isTame calling frame.slots.length) :
    Settles host calling (action.run host frame) frame.Keeps := by
  cases action with
  | assign slot code =>
    obtain ⟨room, inner⟩ := Bool.and_eq_true_iff.mp tame
    exact settles_bind (code.settles_run inner) fun value _ => Frame.settles_setSlot (of_decide_eq_true room) value
  | create container selector =>
    obtain ⟨inner, keyed⟩ := Bool.and_eq_true_iff.mp tame
    apply settles_bind (Selector.settles_key keyed)
    intro key _
    apply settles_bind (container.settles_run inner)
    intro subject _
    exact settles_bind (settles_create subject key selector) fun _ _ => settles_pure rfl

theorem Statement.settles_run (statement : Statement) (tame : statement.isTame calling frame.slots.length) :
    Settles host calling (statement.run host frame) frame.Keeps := by
  cases statement with
  | perform action => exact action.settles_run tame
  | guardedBy conditions action =>
    obtain ⟨asked, done⟩ := Bool.and_eq_true_iff.mp tame
    apply settles_bind (Condition.settles_runAll conditions asked)
    intro hold _
    exact settles_ite (fun _ => action.settles_run done) fun _ => settles_pure rfl
  | checkObject code =>
    apply settles_bind (code.settles_run tame)
    intro value _
    exact settles_bind (settles_guarded value) fun _ _ => settles_pure rfl
  | checkName slot =>
    apply settles_bind (Frame.settles_slot (of_decide_eq_true tame))
    intro key _
    apply settles_bind (settles_memberName key)
    intro _ _
    exact settles_bind (settles_record _) fun _ _ => settles_pure rfl
  | checkFunction slot =>
    apply settles_bind (Frame.settles_slot (of_decide_eq_true tame))
    intro callee _
    apply settles_bind (settles_function callee)
    intro _ _
    exact settles_bind (settles_record _) fun _ _ => settles_pure rfl
  | result code => exact settles_bind (code.settles_run tame) fun _ _ => settles_pure rfl

theorem Statement.settles_runAll (statements : List Statement) {frame : Frame}
    (tame : Statement.areTame calling frame.slots.length statements) :
    Settles host calling (Statement.runAll host frame statements) fun _ => True := by
  induction statements generalizing frame with
  | nil => exact settles_pure trivial
  | cons statement statements hypothesis =>
    obtain ⟨first, others⟩ := Bool.and_eq_true_iff.mp tame
    refine settles_bind (statement.settles_run first) fun after (kept : after.slots.length = _) => ?_
    exact hypothesis (by rwa [kept])

theorem Routine.settles_run {routine : Routine} (tame : Statement.areTame calling routine.slots routine.statements)
    (locals scope parameter : Value) :
    Settles host calling (routine.run host locals scope parameter) fun _ => True := by
  have all : (Frame.start locals scope parameter routine.slots).slots.length = routine.slots := List.length_replicate
  exact settles_bind (Statement.settles_runAll routine.statements (by rwa [all])) fun _ _ => settles_pure trivial

/-! From the source to the end of the run. -/

private theorem Divided.exists_before {text left : Text} {tokens : List Token}
    (divided : Divided text tokens left) :
    ∃ before, text = before ++ left := by
  induction divided with
  | done left => exact ⟨[], rfl⟩
  | @blank c _ _ _ _ _ hypothesis =>
    obtain ⟨before, rfl⟩ := hypothesis
    exact ⟨c :: before, rfl⟩
  | @token token _ _ _ _ _ _ _ hypothesis =>
    obtain ⟨before, rfl⟩ := hypothesis
    exact ⟨token.text ++ before, (List.append_assoc _ _ _).symm⟩

/-- The failures of a source before anything is run: errors of the expression language, and the fault that a whole
number in it has too many digits. -/
def Error.IsAboutSource (failure : Error) (source : Text) : Prop :=
  failure.isReported ∨ ∃ before digits after, source = before ++ (digits ++ after) ∧ (∀ c ∈ digits, c.isDigit) ∧
    Numeral.digitLimit < digits.length ∧ failure = .fault (.tooManyDigits digits.length)

theorem isAboutSource_of_tokenize {source : Text} {failure : Error} (failed : tokenize source = .error failure) :
    failure.IsAboutSource source := by
  obtain ⟨_, left, _, divided, offends⟩ := offends_of_tokenize failed
  obtain ⟨before, rfl⟩ := divided.exists_before
  cases failure with
  | fault cause =>
    cases cause with
    | tooManyDigits count =>
      obtain ⟨digits, rest, rfl, rfl, long, each, _⟩ := offends
      exact .inr ⟨before, digits, rest, rfl, each, long, rfl⟩
    | _ => cases offends
  | unexpectedCharacter | invalidExponent | invalidEscape => exact .inl rfl
  | _ => cases offends

namespace Evaluator

def callsNothing (strict : Bool) (marks : Nat) (source : Text) : Bool :=
  match parse strict marks source with
  | .ok (tree, _) => tree.calls == 0
  | .error _ => true

/-- A source without calls ends with a value or with a failure that is accounted for: with an error of the expression
language, for a number of too many digits in the source, or for one of the causes that are seen in the last machine. -/
theorem accounts_for_failures {strict : Bool} {marks : Nat} {source : Text}
    (quiet : callsNothing strict marks source) (h : Heap) (host : Host σ) (locals scope : Value) (heap : Heap)
    (world : σ) :
    (∀ failure, (ofSource h strict marks source).2 = .error failure → failure.IsAboutSource source) ∧
      ∀ evaluator, (ofSource h strict marks source).2 = .ok evaluator →
        let ended := evaluator.outcome host .run locals scope heap world
        ∀ failure, ended.1 = .error failure → ended.2.Accounts failure := by
  have reads := parse_regular strict marks source
  unfold callsNothing at quiet
  unfold ofSource
  cases parsed : parse strict marks source with
  | error failure =>
    rw [parsed] at reads
    refine ⟨?_, nofun⟩
    rintro _ ⟨⟩
    rcases reads with reported | failed
    · exact .inl reported
    · exact isAboutSource_of_tokenize failed
  | ok result =>
    obtain ⟨tree, leftover⟩ := result
    rw [parsed] at reads quiet
    obtain ⟨body, rfl, regular⟩ := reads
    dsimp only
    cases made : ofTree h (.program body) source with
    | error failure =>
      -- Of a tree that was read, only names and targets can be refused.
      refine ⟨?_, nofun⟩
      rintro _ ⟨⟩
      exact .inl (isReported_of_ofTree regular made)
    | ok evaluator =>
      refine ⟨nofun, ?_⟩
      rintro _ ⟨⟩
      have tame := Node.isTame_routine regular (of_decide_eq_true quiet) (routines_of_ofTree made).1
      have settles : Settles host false (evaluator.run host locals scope) fun _ => True :=
        Routine.settles_run tame locals scope .null
      intro failure failed
      exact ((leads_iff.mp (settles ⟨heap, world, []⟩)).2 failure failed).resolve_right nofun

/-- An assignment to a position that no list has. -/
theorem accounts_for_failures_of_assignment :
    let source := Text.of "a[9999999999999999999] = 1"
    let heap : Heap := ⟨#[.mapping .plain (named [("a", .ref 1)]), .list []]⟩
    callsNothing false 0 source ∧ ∃ evaluator, (ofSource heap false 0 source).2 = .ok evaluator ∧
      let ended := evaluator.outcome (Host.standard 1) .run .null (.ref 0) heap .start
      ended.1 = .error (.fault .indexOverflow) ∧ ended.2.Accounts (.fault .indexOverflow) := by
  intro source heap
  have quiet : callsNothing false 0 source := by decide +kernel
  have ran : (ofSource heap false 0 source).2.toOption.any fun evaluator =>
      let ended := evaluator.outcome (Host.standard 1) .run .null (.ref 0) heap .start
      decide (ended.1 = .error (.fault .indexOverflow)) := by
    decide +kernel
  obtain ⟨evaluator, made, ran⟩ := exists_eq_ok ran
  have failed := of_decide_eq_true ran
  have accounts := (accounts_for_failures quiet heap (Host.standard 1) .null (.ref 0) heap .start).2 evaluator made
  exact ⟨quiet, evaluator, made, failed, accounts _ failed⟩

/-- A figure that is no decimal digit is taken for a position and then not understood: a failure that is no error of
the expression language. -/
theorem fails_for_superscript_position :
    let source := Text.of "[1]['²']"
    callsNothing false 0 source ∧ ∃ evaluator, (ofSource Heap.empty false 0 source).2 = .ok evaluator ∧
      let ended := evaluator.outcome (Host.standard 1) .run .null .null Heap.empty .start
      ∃ failure, ended.1 = .error failure ∧ failure.isReported = false := by
  intro source
  have quiet : callsNothing false 0 source := by decide +kernel
  have ran : (ofSource Heap.empty false 0 source).2.toOption.any fun evaluator =>
      let ended := evaluator.outcome (Host.standard 1) .run .null .null Heap.empty .start
      decide (ended.1 = .error (.fault (.undecidedDigits (Text.of "²")))) := by
    decide +kernel
  obtain ⟨evaluator, made, ran⟩ := exists_eq_ok ran
  exact ⟨quiet, evaluator, made, _, of_decide_eq_true ran, rfl⟩

end Evaluator

end GuardedExpr

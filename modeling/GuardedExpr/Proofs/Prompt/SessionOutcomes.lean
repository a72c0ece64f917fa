import GuardedExpr.Prompt.Session
import GuardedExpr.Proofs.Heap.PrintableValues
import GuardedExpr.Proofs.Run.AccountedFailures
import GuardedExpr.Proofs.Run.RunConfinement

/-!
Sessions at the prompt. Whatever is typed, every line is passed over, handled as a command, reported as an error or
printed as a value; or else it ends the session, for a cause that can be told.
-/

namespace GuardedExpr

namespace Node

mutual

theorem exists_toTree (h : Heap) : (node : Node) → node.isRegular → ∃ tree, node.toTree h = .ok tree
  | .literal _, _ | .identifier _, _ | .this, _ | .locals, _ => ⟨_, rfl⟩
  | .array elements, regular => by
    obtain ⟨trees, drawn⟩ := exists_toTrees h elements regular
    exact ⟨_, by rw [toTree, drawn]; rfl⟩
  | .object properties, regular => by
    obtain ⟨trees, drawn⟩ := exists_toTrees_properties h properties regular
    exact ⟨_, by rw [toTree, drawn]; rfl⟩
  | .member subject key true, regular => by
    obtain ⟨one, other⟩ := Bool.and_eq_true_iff.mp regular
    obtain ⟨left, subjectDrawn⟩ := exists_toTree h subject one
    obtain ⟨right, keyDrawn⟩ := exists_toTree h key other
    exact ⟨_, by rw [toTree, subjectDrawn, keyDrawn]; rfl⟩
  | .member subject (.identifier name) false, regular => by
    obtain ⟨left, subjectDrawn⟩ := exists_toTree h subject regular
    exact ⟨_, by rw [toTree, subjectDrawn]; rfl⟩
  | .call callee arguments, regular => by
    obtain ⟨one, others⟩ := Bool.and_eq_true_iff.mp regular
    obtain ⟨left, calleeDrawn⟩ := exists_toTree h callee one
    obtain ⟨trees, drawn⟩ := exists_toTrees h arguments others
    exact ⟨_, by rw [toTree, calleeDrawn, drawn]; rfl⟩
  | .assignment left right, regular => by
    obtain ⟨one, other⟩ := Bool.and_eq_true_iff.mp regular
    obtain ⟨target, leftDrawn⟩ := exists_toTree h left one
    obtain ⟨value, rightDrawn⟩ := exists_toTree h right other
    exact ⟨_, by rw [toTree, leftDrawn, rightDrawn]; rfl⟩

theorem exists_toTrees (h : Heap) : (nodes : List Node) → areRegular nodes → ∃ trees, toTrees h nodes = .ok trees
  | [], _ => ⟨[], rfl⟩
  | node :: nodes, regular => by
    obtain ⟨one, others⟩ := Bool.and_eq_true_iff.mp regular
    obtain ⟨tree, first⟩ := exists_toTree h node one
    obtain ⟨trees, rest⟩ := exists_toTrees h nodes others
    exact ⟨tree :: trees, by rw [toTrees, first, rest]; rfl⟩

theorem exists_toTrees_properties (h : Heap) : (properties : List Node) → areRegularProperties properties →
    ∃ trees, toTrees h properties = .ok trees
  | [], _ => ⟨[], rfl⟩
  | .property key value :: properties, regular => by
    obtain ⟨both, others⟩ := Bool.and_eq_true_iff.mp regular
    obtain ⟨isKey, one⟩ := Bool.and_eq_true_iff.mp both
    obtain ⟨left, keyDrawn⟩ : ∃ tree, key.toTree h = .ok tree := by
      cases key with
      | identifier | literal => exact ⟨_, rfl⟩
      | _ => cases isKey
    obtain ⟨right, valueDrawn⟩ := exists_toTree h value one
    obtain ⟨trees, rest⟩ := exists_toTrees_properties h properties others
    exact ⟨_, by rw [toTrees, toTree, keyDrawn, valueDrawn, rest]; rfl⟩

end

private theorem exists_pretty (h : Heap) (indent : Text) {body : Node} (regular : body.isRegular) :
    ∃ text, (Node.program body).pretty h indent = .ok text := by
  obtain ⟨tree, drawn⟩ := exists_toTree h body regular
  exact ⟨_, by rw [pretty, toTree, drawn]; rfl⟩

end Node

def Text.HasOverlong (t : Text) (count : Nat) : Prop :=
  ∃ digits, digits <:+: t ∧ (∀ c ∈ digits, c.isDigit) ∧ digits.length = count ∧ Numeral.digitLimit < count

theorem Error.IsAboutSource.cases {failure : Error} {source : Text} (about : failure.IsAboutSource source) :
    failure.isReported ∨ ∃ count, source.HasOverlong count ∧ failure = .fault (.tooManyDigits count) := by
  rcases about with reported | ⟨before, digits, behind, rfl, each, long, rfl⟩
  · exact .inl reported
  · refine .inr ⟨digits.length, ⟨digits, ⟨before, behind, ?_⟩, each, rfl, long⟩, rfl⟩
    rw [List.append_assoc]

namespace Evaluator

/-- What is not read and compiled is an error of the expression language or has a number of too many digits; what is,
is regular. -/
theorem ofSource_cases (h : Heap) (strict : Bool) (marks : Nat) (source : Text) :
    (∃ failure, (ofSource h strict marks source).2 = .error failure ∧ failure.IsAboutSource source) ∨
      ∃ evaluator body, (ofSource h strict marks source).2 = .ok evaluator ∧ body.isRegular ∧
        evaluator.tree = .program body ∧ (Node.program body).routine h = .ok evaluator.routine := by
  have reads := parse_regular strict marks source
  unfold ofSource
  cases parsed : parse strict marks source with
  | error failure =>
    rw [parsed] at reads
    exact .inl ⟨failure, rfl, reads.elim .inl isAboutSource_of_tokenize⟩
  | ok result =>
    obtain ⟨tree, leftover⟩ := result
    rw [parsed] at reads
    obtain ⟨body, rfl, regular⟩ := reads
    dsimp only
    cases made : ofTree h (.program body) source with
    | error failure => exact .inl ⟨failure, rfl, .inl (isReported_of_ofTree regular made)⟩
    | ok evaluator => exact .inr ⟨evaluator, body, rfl, regular, tree_of_ofTree made, (routines_of_ofTree made).1⟩

theorem areTame_of_made {h : Heap} {evaluator : Evaluator} {body : Node} (regular : body.isRegular)
    (made : (Node.program body).routine h = .ok evaluator.routine) :
    Statement.areTame true evaluator.routine.slots evaluator.routine.statements :=
  Node.isTame_routine_calling regular (fun still => absurd still.symm Bool.false_ne_true) made

end Evaluator

namespace Session

variable {session : Session} {line source : Text} {failure : Error}

def warnings (session : Session) (source : Text) : List Effect :=
  (session.compile source).1

theorem compile_of_error (refused :
    (Evaluator.ofSource session.heap session.settings.strict session.world.marks source).2 = .error failure) :
    session.compile source = ((session.compile source).1, .error failure, session) := by
  unfold compile World.compile World.reserve
  dsimp only
  generalize Evaluator.ofSource session.heap session.settings.strict session.world.marks source = read at refused ⊢
  obtain ⟨notices, outcome⟩ := read
  cases refused
  rfl

theorem compile_of_ok {evaluator : Evaluator}
    (made : (Evaluator.ofSource session.heap session.settings.strict session.world.marks source).2 = .ok evaluator) :
    session.compile source = ((session.compile source).1, .ok evaluator,
      { session with world := (session.world.reserve source).2 }) := by
  unfold compile World.compile World.reserve
  dsimp only
  generalize Evaluator.ofSource session.heap session.settings.strict session.world.marks source = read at made ⊢
  obtain ⟨notices, outcome⟩ := read
  cases made
  rfl

/-- What an expression comes to in a session: it is compiled and run against the scope, without locals. The machine is
the one that it leaves behind. -/
def computed (session : Session) (source : Text) : Except Error Value × Machine World :=
  match session.compile source with
  | (_, .error failure, after) => (.error failure, ⟨after.heap, after.world, []⟩)
  | (_, .ok evaluator, after) => evaluator.outcome session.host .run .null after.scope after.heap after.world

def continued (session : Session) (source : Text) : Session :=
  let last := (session.computed source).2
  { session with heap := last.heap, world := last.world }

theorem evaluate_eq (session : Session) (source : Text) :
    session.evaluate source = match (session.computed source).1 with
      | .error failure => (session.continued source).failed (session.warnings source) failure
      | .ok value => (session.continued source).printed (session.warnings source)
          ((session.continued source).heap.stringify value) := by
  unfold evaluate continued computed warnings compile
  rcases session.world.compile session.heap session.settings.strict source with ⟨notices, compiled, world⟩
  cases compiled with
  | error failure => rfl
  | ok evaluator => rfl

/-- The output has no way to write some code point of a text. -/
def Refuses (session : Session) (text : Text) : Prop :=
  ∃ c ∈ text, session.output.encodes c = false

structure Inspects (line word argument : Text) : Prop where
  split : Text.firstWord (Text.trim line) = (word, argument)
  word : word = Text.of "/ast" ∨ word = Text.of "/emit"

inductive View (session : Session) (evaluator : Evaluator) : Text → Text → Prop where
  | tree {text : Text} (drawn : evaluator.tree.pretty session.heap Tree.twoSpaces = .ok text) :
    session.View evaluator (Text.of "/ast") text
  | listing : session.View evaluator (Text.of "/emit") evaluator.source

inductive Fails (session : Session) (source : Text) : Error → Prop where
  /-- A number in it has too many digits. -/
  | numeral {count : Nat} (overlong : source.HasOverlong count) :
    session.Fails source (.fault (.tooManyDigits count))
  /-- Its run has one of the faults that runs without calls have. -/
  | fault {failure : Error} (escapes : (session.computed source).2.Escapes failure) : session.Fails source failure
  /-- Its run has come to a call in which the host failed. -/
  | call {failure : Error} (raises : (session.computed source).2.Raises session.host failure)
    (unreported : failure.isReported = false) : session.Fails source failure

private theorem fails_of_computed (failed : (session.computed source).1 = .error failure) :
    failure.isReported ∨ session.Fails source failure := by
  suffices settles : failure.IsAboutSource source ∨ (session.computed source).2.Explains session.host true failure by
    rcases settles with about | (reported | escapes) | ⟨_, raises⟩
    · rcases about.cases with reported | ⟨count, overlong, rfl⟩
      · exact .inl reported
      · exact .inr (.numeral overlong)
    · exact .inl reported
    · exact .inr (.fault escapes)
    · cases reported : failure.isReported with
      | true => exact .inl rfl
      | false => exact .inr (.call raises reported)
  unfold Session.computed at failed ⊢
  rcases Evaluator.ofSource_cases session.heap session.settings.strict session.world.marks source with
    ⟨failure, refused, about⟩ | ⟨evaluator, body, made, regular, _, routineMade⟩
  · rw [compile_of_error refused] at failed
    cases failed
    exact .inl about
  · rw [compile_of_ok made] at failed ⊢
    have tame := Evaluator.areTame_of_made regular routineMade
    have settles : Run.Settles session.host true (evaluator.run session.host .null session.scope) fun _ => True :=
      Routine.settles_run tame .null session.scope .null
    exact .inr ((Run.leads_iff.mp (settles ⟨session.heap, _, []⟩)).2 failure failed)

inductive Answers (session : Session) (line : Text) : Reply → Prop where
  | skipped (blank : (Text.trim line).isEmpty) : session.Answers line (session.reply [])
  | handled {reply : Reply} (command : session.command? line = some reply) (settled : reply.escaped = none) :
    session.Answers line reply
  | reported {failure : Error} (expression : session.command? line = none)
    (failed : (session.computed line).1 = .error failure) (reported : failure.isReported) :
    session.Answers line ((session.continued line).reply
      (session.warnings line ++ Effect.report session.settings false failure))
  | printed {value : Value} {text : Text} (expression : session.command? line = none)
    (computed : (session.computed line).1 = .ok value)
    (printable : ∀ failure, ¬ (session.continued line).heap.Unprintable value failure)
    (written : (session.continued line).heap.stringify value = .ok text) (encoded : ¬ session.Refuses text) :
    session.Answers line ((session.continued line).reply (session.warnings line ++ [.outLine text]))

/-- Why a session ends with a line. -/
inductive Breaks (session : Session) (line : Text) : Reply → Prop where
  /-- The expression fails. -/
  | expression {failure : Error} (expression : session.command? line = none)
    (failed : (session.computed line).1 = .error failure) (cause : session.Fails line failure) :
    session.Breaks line ⟨session.warnings line, session.continued line, some failure⟩
  /-- The value of the expression has no text. -/
  | value {value : Value} {failure : Error} (expression : session.command? line = none)
    (computed : (session.computed line).1 = .ok value)
    (unprintable : (session.continued line).heap.Unprintable value failure) :
    session.Breaks line ⟨session.warnings line, session.continued line, some failure⟩
  /-- The text of the value cannot be written. -/
  | text {value : Value} {text : Text} (expression : session.command? line = none)
    (computed : (session.computed line).1 = .ok value)
    (shown : (session.continued line).heap.stringify value = .ok text) (refused : session.Refuses text) :
    session.Breaks line ⟨session.warnings line, session.continued line, some (.fault .unencodable)⟩
  /-- The scope was to be printed and has no text. -/
  | scope {failure : Error} (command : (Text.firstWord (Text.trim line)).1 = Text.of "/scope")
    (unprintable : session.heap.Unprintable session.scope failure) :
    session.Breaks line ⟨[], session, some failure⟩
  /-- The scope was to be printed, and its text cannot be written. -/
  | scopeText {text : Text} (command : (Text.firstWord (Text.trim line)).1 = Text.of "/scope")
    (shown : session.heap.stringify session.scope = .ok text) (refused : session.Refuses text) :
    session.Breaks line ⟨[], session, some (.fault .unencodable)⟩
  /-- An expression was to be shown, in which a number has too many digits. -/
  | argument {word argument : Text} {count : Nat} (inspects : Inspects line word argument)
    (overlong : argument.HasOverlong count) :
    session.Breaks line ⟨session.warnings argument, session, some (.fault (.tooManyDigits count))⟩
  /-- An expression was to be shown, and the text for that cannot be written. -/
  | view {word argument text : Text} {evaluator : Evaluator} (inspects : Inspects line word argument)
    (made : (session.compile argument).2.1 = .ok evaluator) (shown : session.View evaluator word text)
    (refused : session.Refuses text) :
    session.Breaks line ⟨session.warnings argument, session, some (.fault .unencodable)⟩

theorem Answers.escaped {reply : Reply} (answers : session.Answers line reply) : reply.escaped = none := by
  cases answers with
  | handled _ settled => exact settled
  | _ => rfl

theorem Breaks.escaped {reply : Reply} (breaks : session.Breaks line reply) :
    ∃ failure, reply.escaped = some failure := by
  cases breaks <;> exact ⟨_, rfl⟩

def Handles (session : Session) (line : Text) (reply : Reply) : Prop :=
  session.Answers line reply ∨ session.Breaks line reply

/-! What is printed. -/

theorem say_cases (session : Session) (effects : List Effect) (text : Text) :
    (¬ session.Refuses text ∧ session.say effects text = session.reply (effects ++ [.outLine text])) ∨
      (session.Refuses text ∧ session.say effects text = ⟨effects, session, some (.fault .unencodable)⟩) := by
  unfold say Refuses
  split
  · next encoded => exact .inl ⟨by simpa using encoded, rfl⟩
  · next refused => exact .inr ⟨by simpa using refused, rfl⟩

theorem escaped_say_of_isAscii (session : Session) (effects : List Effect) {text : Text} (ascii : text.isAscii) :
    (session.say effects text).escaped = none := by
  have encoded : text.all session.output.encodes :=
    List.all_eq_true.mpr fun c member => session.output.ascii c (of_decide_eq_true (List.all_eq_true.mp ascii c member))
  rw [say, if_pos encoded]
  rfl

private theorem handles_evaluate (expression : session.command? line = none) :
    session.Handles line (session.evaluate line) := by
  rw [evaluate_eq]
  cases ended : (session.computed line).1 with
  | ok value =>
    dsimp only
    cases written : (session.continued line).heap.stringify value with
    | ok text =>
      rcases (session.continued line).say_cases (session.warnings line) text with ⟨encoded, said⟩ | ⟨refused, said⟩
      · rw [printed, said]
        exact .inl (.printed expression ended (fun _ => Heap.not_unprintable_of_stringify written) written encoded)
      · rw [printed, said]
        exact .inr (.text expression ended written refused)
    | error failure => exact .inr (.value expression ended (Heap.unprintable_of_stringify written))
  | error failure =>
    dsimp only
    unfold failed
    split
    · next reported => exact .inl (.reported expression ended reported)
    · next unreported =>
      exact .inr (.expression expression ended ((fails_of_computed ended).resolve_left unreported))

/-! Commands. -/

private theorem escaped_switchTracing (session : Session) (argument : Text) :
    (session.switchTracing argument).escaped = none := by
  unfold switchTracing
  dsimp only
  split
  · next tracing _ => cases tracing <;> exact escaped_say_of_isAscii _ _ (by decide)
  · rfl

/-- A view of expressions breaks the session for a number with too many digits, or where it cannot be written. -/
theorem handles_inspect {word argument : Text} (inspects : Inspects line word argument)
    {view : Evaluator → Except Error Text}
    (shows_ : ∀ evaluator body, evaluator.tree = .program body → body.isRegular →
      ∃ text, view evaluator = .ok text ∧ session.View evaluator word text) :
    let reply := session.inspect word argument view
    reply.escaped = none ∨ session.Breaks line reply := by
  have breaks {count : Nat} (overlong : argument.HasOverlong count) : session.Breaks line
      ⟨session.warnings argument, session, some (.fault (.tooManyDigits count))⟩ :=
    .argument inspects overlong
  have unshown {evaluator : Evaluator} {text : Text} (made : (session.compile argument).2.1 = .ok evaluator)
      (shown : session.View evaluator word text) (refused : session.Refuses text) : session.Breaks line
      ⟨session.warnings argument, session, some (.fault .unencodable)⟩ :=
    .view inspects made shown refused
  unfold warnings at breaks unshown
  unfold inspect
  split
  · exact .inl rfl
  · rcases Evaluator.ofSource_cases session.heap session.settings.strict session.world.marks argument with
      ⟨failure, refused, about⟩ | ⟨evaluator, body, made, regular, tree, _⟩
    · rw [compile_of_error refused] at breaks ⊢
      dsimp only [failed] at breaks ⊢
      split
      · exact .inl rfl
      · next unreported =>
        obtain ⟨count, overlong, rfl⟩ := about.cases.resolve_left unreported
        exact .inr (breaks overlong)
    · obtain ⟨text, drawn, shown⟩ := shows_ evaluator body tree regular
      rw [compile_of_ok made] at unshown ⊢
      dsimp only at unshown ⊢
      rw [drawn]
      rcases session.say_cases (session.compile argument).1 text with ⟨_, said⟩ | ⟨refused, said⟩
      · rw [printed, said]
        exact .inl rfl
      · rw [printed, said]
        exact .inr (unshown rfl shown refused)

private theorem handles_command {reply : Reply} (command : session.command? line = some reply) :
    session.Handles line reply := by
  suffices whole : reply.escaped = none ∨ session.Breaks line reply from whole.imp_left (.handled command)
  unfold command? at command
  dsimp only at command
  split at command
  · cases command
  rw [← Option.some.inj command]
  split
  · exact .inl rfl
  split
  · exact .inl (escaped_switchTracing session _)
  split
  · exact .inl (escaped_say_of_isAscii _ _ (by decide))
  split
  · next shown =>
    cases written : session.heap.stringify session.scope with
    | ok text =>
      rcases session.say_cases [] text with ⟨_, said⟩ | ⟨refused, said⟩
      · rw [printed, said]
        exact .inl rfl
      · rw [printed, said]
        exact .inr (.scopeText shown written refused)
    | error failure => exact .inr (.scope shown (Heap.unprintable_of_stringify written))
  split
  · next asked =>
    have inspects : Inspects line (Text.of "/ast") _ := ⟨Prod.ext asked rfl, .inl rfl⟩
    rw [asked]
    refine handles_inspect inspects fun evaluator body tree regular => ?_
    obtain ⟨text, drawn⟩ := Node.exists_pretty session.heap Tree.twoSpaces regular
    rw [← tree] at drawn
    exact ⟨text, drawn, .tree drawn⟩
  split
  · next asked =>
    have inspects : Inspects line (Text.of "/emit") _ := ⟨Prod.ext asked rfl, .inr rfl⟩
    rw [asked]
    exact handles_inspect inspects fun _ _ _ _ => ⟨_, rfl, .listing⟩
  · exact .inl rfl

private theorem handles_respond (session : Session) (t : Text) :
    session.Handles t.visible (session.respond (.line t)) := by
  unfold respond
  dsimp only
  split
  · next blank => exact .inl (.skipped blank)
  · cases command : session.command? t.visible with
    | some reply => exact handles_command command
    | none => exact handles_evaluate command

/-- How a session goes on over lines: it answers them one by one, up to the last, or to one that breaks it. -/
inductive Converses : Session → List Text → List Reply → Prop where
  | finished (session : Session) : Converses session [] []
  | answered {session : Session} {line : Text} {lines : List Text} {reply : Reply} {replies : List Reply}
    (answers : session.Answers line.visible reply) (rest : Converses reply.session lines replies) :
    Converses session (line :: lines) (reply :: replies)
  | broken {session : Session} {line : Text} {lines : List Text} {reply : Reply}
    (breaks : session.Breaks line.visible reply) : Converses session (line :: lines) [reply]

private theorem converses_respondAll (session : Session) (lines : List Text) :
    session.Converses lines (session.respondAll (lines.map .line)) := by
  induction lines generalizing session with
  | nil => exact .finished session
  | cons line lines ih =>
    rw [List.map_cons, respondAll]
    rcases handles_respond session line with answers | breaks
    · rw [answers.escaped]
      exact .answered answers (ih _)
    · obtain ⟨cause, escaped⟩ := breaks.escaped
      rw [escaped]
      exact .broken breaks

/-- A session from the empty scope on answers every line, unless one of them breaks it: for a number of too many digits,
for a fault of the run, for a failure of the host in a call, or for what cannot be printed. It does so whatever calls
do, and whatever the output can write. -/
theorem start_converses (host : Host World) (output : Output) (settings : Settings) (lines : List Text) :
    (start host output settings).Converses lines ((start host output settings).respondAll (lines.map .line)) :=
  converses_respondAll _ lines

/-- What is assigned in its own scope cannot be printed, and the line behind it is not read any more. -/
theorem breaks_for_scope_in_itself :
    let session := start (Host.standard Host.depth) Output.utf8 ⟨false, false⟩
    let replies := session.respondAll (["a = this", "1"].map fun line => .line (Text.of line))
    replies.map Reply.escaped = [some (.fault .circular)] := by
  decide +kernel

end Session

end GuardedExpr

import GuardedExpr.Command.Basic
import GuardedExpr.Host.Standard
import GuardedExpr.Json.Heap
import GuardedExpr.Node.Tree

/-!
The commands of the prompt, which begin with a slash, and their completion.
-/

namespace GuardedExpr

/-- A session at the prompt: one scope that lives through all its lines, the settings, and what it is a session of. -/
structure Session where
  heap : Heap
  world : World
  scope : Value
  settings : Settings
  host : Host World
  output : Output

structure Reply where
  effects : List Effect
  session : Session
  escaped : Option Error

namespace Session

def start (host : Host World) (output : Output) (settings : Settings) : Session :=
  let (scope, heap) := Heap.empty.alloc (.mapping .plain [])
  ⟨heap, World.start, .ref scope, settings, host, output⟩

def reply (session : Session) (effects : List Effect) : Reply :=
  ⟨effects, session, none⟩

def failed (session : Session) (effects : List Effect) (failure : Error) : Reply :=
  if failure.isReported then session.reply (effects ++ Effect.report session.settings false failure)
  else ⟨effects, session, some failure⟩

def say (session : Session) (effects : List Effect) (text : Text) : Reply :=
  if text.all session.output.encodes then session.reply (effects ++ [.outLine text])
  else ⟨effects, session, some (.fault .unencodable)⟩

def printed (session : Session) (effects : List Effect) : Except Error Text → Reply
  | .ok text => session.say effects text
  | .error failure => ⟨effects, session, some failure⟩

def compile (session : Session) (source : Text) : List Effect × Except Error Evaluator × Session :=
  let (notices, compiled, world) := session.world.compile session.heap session.settings.strict source
  ((notices.filter Notice.isWarning).map fun notice => .errLine notice.message, compiled,
    { session with world })

def evaluate (session : Session) (source : Text) : Reply :=
  match session.compile source with
  | (effects, .error failure, session) => session.failed effects failure
  | (effects, .ok evaluator, session) =>
    let (outcome, machine) := (evaluator.run session.host .null session.scope).run.run
      ⟨session.heap, session.world, []⟩
    let session := { session with heap := machine.heap, world := machine.world }
    match outcome with
    | .error failure => session.failed effects failure
    | .ok value => session.printed effects (session.heap.stringify value)

end Session

def commandWords : List (Text × Text × Text) :=
  [("/clear", "Clear the terminal screen", ""),
    ("/py-traceback", "Toggle Python traceback on errors", "[on|off]"),
    ("/reset", "Reset the scope", ""),
    ("/scope", "Print the current scope", ""),
    ("/ast", "Print the parse tree of an expression", "EXPR"),
    ("/emit", "Print the generated evaluator listing", "EXPR")].map
    fun word => (Text.of word.1, Text.of word.2.1, Text.of word.2.2)

def completions (typed : Text) : List (Text × Text) :=
  if Text.startsWith (Text.of "/") typed then
    (commandWords.filter fun word => typed.isPrefixOf word.1).map
      fun word => (word.1, Text.trim (word.2.1 ++ Text.of " " ++ word.2.2))
  else []

namespace Session

def onWords : List Text := ["on", "1", "true", "yes"].map Text.of

def offWords : List Text := ["off", "0", "false", "no"].map Text.of

def switchTracing (session : Session) (argument : Text) : Reply :=
  let chosen :=
    if onWords.contains argument.lower then some true
    else if offWords.contains argument.lower then some false
    else if argument.isEmpty then some (!session.settings.tracing)
    else none
  match chosen with
  | some tracing =>
    let session := { session with settings := { session.settings with tracing } }
    session.say [] (Text.of "Python traceback: " ++ Text.of (if tracing then "on" else "off"))
  | none => session.reply [.errLine (Text.of "Usage: /py-traceback [on|off]")]

/-- Shows something about an expression without evaluating it. No value comes of it, so the session stays as it was. -/
def inspect (session : Session) (word argument : Text) (view : Evaluator → Except Error Text) : Reply :=
  if argument.isEmpty then
    session.reply [.errLine (Text.of "Usage: " ++ word ++ Text.of " EXPR")]
  else match session.compile argument with
    | (effects, .error failure, _) => session.failed effects failure
    | (effects, .ok evaluator, _) => session.printed effects (view evaluator)

def reset (session : Session) : Session :=
  let (scope, heap) := session.heap.alloc (.mapping .plain [])
  { session with heap, scope := .ref scope }

/-- Handles a line that is a command; other lines are left alone. -/
def command? (session : Session) (line : Text) : Option Reply :=
  let trimmed := Text.trim line
  if !Text.startsWith (Text.of "/") trimmed then none
  else
    let (word, argument) := Text.firstWord trimmed
    some <|
      if word = Text.of "/clear" then session.reply [.clearScreen]
      else if word = Text.of "/py-traceback" then session.switchTracing argument
      else if word = Text.of "/reset" then session.reset.say [] (Text.of "Scope reset.")
      else if word = Text.of "/scope" then session.printed [] (session.heap.stringify session.scope)
      else if word = Text.of "/ast" then
        session.inspect word argument fun evaluator => evaluator.tree.pretty session.heap Tree.twoSpaces
      else if word = Text.of "/emit" then
        session.inspect word argument fun evaluator => .ok evaluator.source
      else session.reply [.errLine (Text.of "Unknown command: " ++ word)]

end Session

end GuardedExpr

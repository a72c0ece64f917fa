import GuardedExpr.Command.Argument
import GuardedExpr.Command.Basic
import GuardedExpr.Host.Standard
import GuardedExpr.Json.Heap
import GuardedExpr.Node.Tree

/-!
The command line: evaluates one expression against a scope and locals given as JSON, and prints the result
as JSON.
-/

namespace GuardedExpr

inductive Exit where
  | success
  /-- An error of the expression language was reported. -/
  | failure
  /-- The command could not start, for the reason given. -/
  | message (t : Text)
  deriving DecidableEq

structure CommandResult where
  effects : List Effect
  exit : Exit
  escaped : Option Error

structure CommandLine where
  scope : Json
  locals : Json
  showTree : Bool
  showListing : Bool
  strict : Bool
  detailed : Bool
  expression : Option Text

namespace CommandLine

def bare : CommandLine :=
  ⟨.object [], .null, false, false, false, false, none⟩

def option (read : Text → FileAnswer) (flag : String) (argument : Text) : Except Text Json :=
  match Argument.load read argument with
  | .ok document => .ok document
  | .error failure => .error (Text.of flag ++ Text.of ": " ++ failure.message)

def behind? (flag : String) (argument : Text) : Option Text :=
  let start := Text.of flag ++ Text.of "="
  if start.isPrefixOf argument then some (argument.drop start.length) else none

def takeIn (read : Text → FileAnswer) (line : CommandLine) (argument : Text) : Except Text CommandLine := do
  if let some document := behind? "--scope" argument then
    return { line with scope := ← option read "--scope" document }
  if let some document := behind? "--locals" argument then
    return { line with locals := ← option read "--locals" document }
  if argument = Text.of "--ast" then return { line with showTree := true }
  if argument = Text.of "--emit" then return { line with showListing := true }
  if argument = Text.of "--strict" then return { line with strict := true }
  if argument = Text.of "--debug" then return { line with detailed := true }
  match line.expression with
  | none => return { line with expression := some argument }
  | some _ => throw (Text.of "Unexpected argument: " ++ argument)

def takesNext (argument : Text) : Bool :=
  argument = Text.of "--scope" || argument = Text.of "--locals"

def ofArguments (read : Text → FileAnswer) : CommandLine → List Text → Except Text CommandLine
  | line, [] => .ok line
  | line, argument :: arguments =>
    if takesNext argument then
      match arguments with
      | [] => .error (argument ++ Text.of " flag requires a JSON value or @path")
      | document :: others => do
        ofArguments read (← takeIn read line (argument ++ Text.of "=" ++ document)) others
    else do ofArguments read (← takeIn read line argument) arguments

def paths : List Text → List Text
  | [] => []
  | argument :: arguments =>
    let documents := [behind? "--scope" argument, behind? "--locals" argument, some argument]
    (documents.filterMap fun document => document.bind Argument.path?) ++ paths arguments

def given? (line : CommandLine) : Option Text :=
  line.expression.filter fun expression => expression != Text.of "-"

def sourceText (line : CommandLine) (input : Text) : Except Text Text :=
  match line.given? with
  | some expression => .ok expression
  | none =>
    if (Text.trim input).isEmpty then .error (Text.of "No input provided on stdin") else .ok input

def wantsInput (read : Text → FileAnswer) (arguments : List Text) : Bool :=
  match ofArguments read bare arguments with
  | .ok line => line.given?.isNone
  | .error _ => false

def noticeEffects (detailed : Bool) (notices : List Notice) : List Effect :=
  if detailed then notices.map fun notice => .errLine notice.logLine
  else (notices.filter Notice.isWarning).map fun notice => .errLine notice.message

def failed (settings : Settings) (effects : List Effect) (failure : Error) : CommandResult :=
  if failure.isReported then ⟨effects ++ Effect.report settings true failure, .failure, none⟩
  else ⟨effects, .success, some failure⟩

def evaluate (output : Output) (settings : Settings) (line : CommandLine) (source : Text) : CommandResult :=
  let (scope, heap) := Heap.empty.ofJson line.scope
  let (locals, heap) := heap.ofJson line.locals
  let (notices, compiled, world) := World.start.compile heap (line.strict || settings.strict) source
  let before := noticeEffects line.detailed notices
  match compiled with
  | .error failure => failed settings before failure
  | .ok evaluator =>
    match if line.showTree then evaluator.tree.pretty heap Tree.twoSpaces >>= output.accept else .ok [] with
    | .error failure => failed settings before failure
    | .ok tree =>
      let before := before ++ (if line.showTree then [.out tree] else [])
      match if line.showListing then output.accept evaluator.source else .ok [] with
      | .error failure => failed settings before failure
      | .ok listing =>
        let shown := before ++ (if line.showListing then [.outLine listing] else [])
        let (outcome, last) :=
          (evaluator.run (Host.standard Host.depth) locals scope).run.run ⟨heap, world, []⟩
        match outcome with
        | .error failure => failed settings shown failure
        | .ok value => match last.heap.stringify value >>= output.accept with
          | .ok text => ⟨shown ++ [.outLine text], .success, none⟩
          | .error failure => ⟨shown, .success, some failure⟩

def run (output : Output) (settings : Settings) (read : Text → FileAnswer) (input : Text)
    (arguments : List Text) : CommandResult :=
  match ofArguments read bare arguments with
  | .error message => ⟨[], .message message, none⟩
  | .ok line => match line.sourceText input with
    | .error message => ⟨[], .message message, none⟩
    | .ok source => line.evaluate output settings source

end CommandLine

end GuardedExpr

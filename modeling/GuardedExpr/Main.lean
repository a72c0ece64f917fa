import GuardedExpr.Command.Line
import GuardedExpr.Prompt.Terminal

/-!
The program. Under a name that ends in `-repl` it is the prompt, under any other the command line.
-/

namespace GuardedExpr.Program

def readFile (path : Text) : IO FileAnswer := do
  try
    return .content (Text.of (← IO.FS.readFile path.toString))
  catch
    | .inappropriateType _ _ _ => return .directory
    | _ => return .missing

def readFiles (arguments : List Text) : IO (List (Text × FileAnswer)) :=
  (CommandLine.paths arguments).mapM fun path => do return (path, ← readFile path)

def readInput : IO Text := do
  return Text.of (← (← IO.getStdin).readToEnd)

def command (arguments : List Text) : IO UInt32 := do
  let files ← readFiles arguments
  let read (path : Text) := (Table.lookup path files).getD .missing
  let input ← if CommandLine.wantsInput read arguments then readInput else pure []
  let result := CommandLine.run Output.utf8 (← Terminal.settings) read input arguments
  Terminal.performAll result.effects
  match result.escaped, result.exit with
  | some failure, _ => Terminal.abandon failure
  | none, .success => return 0
  | none, .failure => return 1
  | none, .message t =>
    Terminal.performAll [.errLine t]
    return 1

end GuardedExpr.Program

def main (arguments : List String) : IO UInt32 := do
  let name := (← IO.appPath).fileStem.getD ""
  if name.endsWith "-repl" then GuardedExpr.Terminal.prompt
  else GuardedExpr.Program.command (arguments.map GuardedExpr.Text.of)

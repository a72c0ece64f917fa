import GuardedExpr.Prompt.Session

/-!
The terminal: output goes to its two streams, and the prompt reads its lines from the standard input.
-/

namespace GuardedExpr

namespace Terminal

def clearing : String := "\x1b[2J\x1b[H"

def perform : Effect → IO Unit
  | .out t => do (← IO.getStdout).putStr t.toString
  | .err t => do (← IO.getStderr).putStr t.toString
  | .clearScreen => do (← IO.getStdout).putStr clearing

def performAll (effects : List Effect) : IO Unit := do
  effects.forM perform
  (← IO.getStdout).flush

def settings : IO Settings := do
  let strict ← IO.getEnv "NGEXPR_STRICT"
  let tracing ← IO.getEnv "NGEXPR_DEBUG_PY_TRACE"
  return Settings.ofTexts (strict.map Text.of) (tracing.map Text.of)

def abandon (failure : Error) : IO UInt32 := do
  performAll [.errLine failure.message]
  return 1

partial def converse (session : Session) : IO UInt32 := do
  performAll [.out Session.mark]
  let line ← (← IO.getStdin).getLine
  if line.isEmpty then
    performAll Session.farewell
    return 0
  else
    let typed := Text.of line
    let reply := session.respond (.line (if line.endsWith "\n" then typed.dropLast else typed))
    performAll reply.effects
    match reply.escaped with
    | some failure => abandon failure
    | none => converse reply.session

def prompt : IO UInt32 := do
  performAll Session.banner
  converse (Session.start (Host.standard Host.depth) Output.utf8 (← settings))

end Terminal

end GuardedExpr

import GuardedExpr.Prompt.Command

/-!
The prompt: a banner, then one reply to each line until the input ends or a failure escapes.
-/

namespace GuardedExpr

inductive Input where
  | line (t : Text)
  | interrupt
  deriving DecidableEq

/-- Characters without width, and carriage returns: they are dropped from every line. -/
def CodePoint.isInvisible (c : CodePoint) : Bool :=
  c.val = 0x200B || c.val = 0x200C || c.val = 0x200D || c.val = 0xFEFF || c = '\r'

def Text.visible (t : Text) : Text :=
  t.filter fun c : CodePoint => !c.isInvisible

namespace Session

def banner : List Effect :=
  [.outLine (Text.of "ngexpr repl - Ctrl-D to exit, / for commands")]

def mark : Text := Text.of ">>> "

def farewell : List Effect := [.outLine []]

def respond (session : Session) : Input → Reply
  | .interrupt => session.reply [.outLine (Text.of "KeyboardInterrupt")]
  | .line t =>
    let line := t.visible
    if (Text.trim line).isEmpty then session.reply []
    else match session.command? line with
      | some reply => reply
      | none => session.evaluate line

/-- The replies to inputs, up to the first failure that escapes. -/
def respondAll : Session → List Input → List Reply
  | _, [] => []
  | session, input :: inputs =>
    let reply := session.respond input
    match reply.escaped with
    | some _ => [reply]
    | none => reply :: respondAll reply.session inputs

end Session

end GuardedExpr

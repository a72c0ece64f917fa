import GuardedExpr.Command.Path
import GuardedExpr.Json.Reader

/-!
JSON given as an argument: the text itself, or a file behind an at sign.
-/

namespace GuardedExpr

inductive ArgumentError where
  | file (path : Text) (answer : FileAnswer)
  | json (document : Text) (failure : Json.Failure)
  deriving DecidableEq

namespace ArgumentError

def message : ArgumentError → Text
  | .file path answer => FilePath.refusal path answer
  | .json document failure => match failure.problem with
    | .tooManyDigits count => (Fault.tooManyDigits count).message
    | _ => failure.message document

end ArgumentError

namespace Argument

def document (t : Text) : Except ArgumentError Json :=
  match Json.read t with
  | .ok found => .ok found
  | .error failure => .error (.json t failure)

def path? : Text → Option Text
  | c :: rest => if c = '@' then some (FilePath.normal rest) else none
  | [] => none

def load (read : Text → FileAnswer) (argument : Text) : Except ArgumentError Json :=
  match path? argument with
  | none => document argument
  | some path => match read path with
    | .content content => document (FilePath.unixLines content)
    | answer => .error (.file path answer)

end Argument

end GuardedExpr

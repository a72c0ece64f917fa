import GuardedExpr.Error

/-!
Paths of files and the answers to reading them.
-/

namespace GuardedExpr

inductive FileAnswer where
  | content (t : Text)
  | missing
  | directory
  | notDirectory
  | badName
  deriving DecidableEq

namespace FilePath

def parts : Text → List Text
  | [] => [[]]
  | c :: rest =>
    if c = '/' then [] :: parts rest
    else match parts rest with
      | [] => [[c]]
      | part :: others => (c :: part) :: others

def root (t : Text) : Text :=
  match (t.takeWhile fun c : CodePoint => c = '/').length with
  | 0 => []
  | 2 => Text.of "//"
  | _ => Text.of "/"

/-- The parts that stay in place. -/
def staying : List Text := [[], Text.of "."]

/-- A path without empty parts and parts that stay in place; the empty path is the current directory. -/
def normal (t : Text) : Text :=
  let steps := (parts t).filter fun part => !staying.contains part
  match root t ++ Text.join (Text.of "/") steps with
  | [] => Text.of "."
  | path => path

/-- Reads from a directory that holds files and nothing else. The directories above it exist, but what else they
hold is not looked at. -/
def readFrom (files : List (Text × Text)) (path : Text) : FileAnswer :=
  if path.contains (CodePoint.ofNat 0) then .badName
  else match files.find? fun file => file.1 = path with
    | some file => .content file.2
    | none =>
      if (parts path).all (staying ++ [Text.of ".."]).contains then .directory
      else if files.any fun file => Text.startsWith (path ++ Text.of "/") file.1 then .directory
      else if files.any fun file => Text.startsWith (file.1 ++ Text.of "/") path then .notDirectory
      else .missing

def refusal (path : Text) : FileAnswer → Text
  | .content _ => []
  | .missing => Text.of "[Errno 2] No such file or directory: " ++ path.quoted
  | .directory => Text.of "[Errno 21] Is a directory: " ++ path.quoted
  | .notDirectory => Text.of "[Errno 20] Not a directory: " ++ path.quoted
  | .badName => Text.of "embedded null byte"

def unixLines : Text → Text
  | [] => []
  | c :: rest =>
    if c = '\r' then
      match rest with
      | d :: after => if d = '\n' then d :: unixLines after else CodePoint.ofChar '\n' :: unixLines (d :: after)
      | [] => [CodePoint.ofChar '\n']
    else c :: unixLines rest

end FilePath

end GuardedExpr

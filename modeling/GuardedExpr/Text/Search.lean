import GuardedExpr.Text.Blank

/-!
Finding one text in another, and cutting a text into pieces.
-/

namespace GuardedExpr

def CodePoint.endsLine (c : CodePoint) : Bool :=
  (0xA ≤ c.val && c.val ≤ 0xD) || (0x1C ≤ c.val && c.val ≤ 0x1E) || c.val = 0x85 || c.val = 0x2028 || c.val = 0x2029

namespace Text

/-- Whether one text comes before another or is the same: the first character in which they differ decides. -/
def isUpTo : Text → Text → Bool
  | [], _ => true
  | _ :: _, [] => false
  | c :: t, d :: u => c.val < d.val || (c = d && isUpTo t u)

def first? (part : Text) : Text → Option Nat
  | [] => if part.isEmpty then some 0 else none
  | c :: rest => if startsWith part (c :: rest) then some 0 else (first? part rest).map (· + 1)

def last? (part whole : Text) : Option Nat :=
  (first? part.reverse whole.reverse).map fun distance => whole.length - part.length - distance

def endsWith (part whole : Text) : Bool :=
  part.isSuffixOf whole

def cut (separator : Text) : Nat → Text → List Text
  | 0, t => [t]
  | count + 1, t => match first? separator t with
    | some place => t.take place :: cut separator count (t.drop (place + separator.length))
    | none => [t]

/-- The words between blanks; behind so many of them the rest is left together. -/
def words : Nat → Text → List Text
  | count, t =>
    let rest := t.dropWhile CodePoint.isBlank
    if rest.isEmpty then []
    else match count with
      | 0 => [rest]
      | count + 1 =>
        rest.takeWhile (fun c => !c.isBlank) :: words count (rest.dropWhile fun c => !c.isBlank)

def fromEnd (pieces : Text → List Text) (t : Text) : List Text :=
  ((pieces t.reverse).map List.reverse).reverse

def interleave (between : Text) : Nat → Text → Text
  | 0, t => t
  | _ + 1, [] => between
  | count + 1, c :: rest => between ++ c :: interleave between count rest

def replace (part other : Text) (count : Nat) (t : Text) : Text :=
  if part.isEmpty then interleave other count t else join other (cut part count t)

def partedAt (separator t : Text) (place : Nat) : List Text :=
  [t.take place, separator, t.drop (place + separator.length)]

def isAscii (t : Text) : Bool :=
  t.all fun c : CodePoint => c.val < 128

def stripStart (kind : CodePoint → Bool) (t : Text) : Text :=
  t.dropWhile kind

def stripEnd (kind : CodePoint → Bool) (t : Text) : Text :=
  (t.reverse.dropWhile kind).reverse

/-- The first letter of every run of letters in upper case, the others in lower case. -/
def titled (inside : Bool) : Text → Text
  | [] => []
  | c :: rest => (if inside then c.asciiLower else c.asciiUpper) :: titled c.isLetter rest

/-- Blanks in the place of each tab, up to the next column that is a multiple of the width. -/
def expanded (width column : Nat) : Text → Text
  | [] => []
  | c :: rest =>
    if c = CodePoint.ofChar '\t' then
      let gap := if width = 0 then 0 else width - column % width
      List.replicate gap (CodePoint.ofChar ' ') ++ expanded width (column + gap) rest
    else
      let ends := c = CodePoint.ofChar '\n' || c = CodePoint.ofChar '\r'
      c :: expanded width (if ends then 0 else column + 1) rest

/-- The lines of a text whose first line goes on from the given one. A carriage return and a line feed behind it
end one line. -/
def cutLines (keep : Bool) : Text → Text → List Text
  | line, [] => if line.isEmpty then [] else [line]
  | line, [c] => if c.endsLine && !keep then [line] else [line ++ [c]]
  | line, c :: d :: rest =>
    if c = CodePoint.ofChar '\r' && d = CodePoint.ofChar '\n' then
      (if keep then line ++ [c, d] else line) :: cutLines keep [] rest
    else if c.endsLine then (if keep then line ++ [c] else line) :: cutLines keep [] (d :: rest)
    else cutLines keep (line ++ [c]) (d :: rest)

def padded (fill : CodePoint) (front behind : Nat) (t : Text) : Text :=
  List.replicate front fill ++ t ++ List.replicate behind fill

end Text

end GuardedExpr

/-!
Text as a sequence of code points. A surrogate is a code point like any other and may stand alone, so
two neighbouring surrogates stay two items; nothing in the library joins them.
-/

namespace GuardedExpr

abbrev CodePoint := Fin 0x110000

/-- Text is counted, indexed and compared by code points. -/
abbrev Text := List CodePoint

namespace CodePoint

def ofChar (c : Char) : CodePoint :=
  ⟨c.toNat, by
    have bound := c.valid
    simp only [UInt32.isValidChar, Nat.isValidChar] at bound
    simp only [Char.toNat]
    omega⟩

instance : Coe Char CodePoint := ⟨ofChar⟩

def ofNat (n : Nat) : CodePoint :=
  if bound : n < 0x110000 then ⟨n, bound⟩ else ofChar '\x00'

def isSurrogate (c : CodePoint) : Bool :=
  0xD800 ≤ c.val && c.val ≤ 0xDFFF

def within (first last : Char) (c : CodePoint) : Bool :=
  first.toNat ≤ c.val && c.val ≤ last.toNat

def isDigit (c : CodePoint) : Bool :=
  c.within '0' '9'

def isLetter (c : CodePoint) : Bool :=
  c.within 'a' 'z' || c.within 'A' 'Z'

theorem isDigit_iff {c : CodePoint} : c.isDigit ↔ 48 ≤ c.val ∧ c.val ≤ 57 := by
  simp [isDigit, within]

theorem isLetter_iff {c : CodePoint} : c.isLetter ↔ 97 ≤ c.val ∧ c.val ≤ 122 ∨ 65 ≤ c.val ∧ c.val ≤ 90 := by
  simp [isLetter, within]

def digitValue (c : CodePoint) : Nat :=
  c.val - 48

def hexValue? (c : CodePoint) : Option Nat :=
  if c.isDigit then some (c.val - 48)
  else if c.within 'a' 'f' then some (c.val - 87)
  else if c.within 'A' 'F' then some (c.val - 55)
  else none

def asciiLower (c : CodePoint) : CodePoint :=
  if c.within 'A' 'Z' then ofNat (c.val + 32) else c

def asciiUpper (c : CodePoint) : CodePoint :=
  if c.within 'a' 'z' then ofNat (c.val - 32) else c

end CodePoint

namespace Text

def of (s : String) : Text :=
  s.toList.map CodePoint.ofChar

def join (separator : Text) : List Text → Text
  | [] => []
  | [piece] => piece
  | piece :: pieces => piece ++ separator ++ join separator pieces

def lines : Text → List Text
  | [] => [[]]
  | c :: rest =>
    if c = '\n' then [] :: lines rest
    else match lines rest with
      | [] => [[c]]
      | line :: others => (c :: line) :: others

def startsWith (start whole : Text) : Bool :=
  start.isPrefixOf whole

def toString (t : Text) : String :=
  String.ofList (t.map fun c => if c.isSurrogate then Char.ofNat 0xFFFD else Char.ofNat c.val)

end Text

end GuardedExpr

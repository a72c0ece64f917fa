import GuardedExpr.Text.Basic

/-!
Blank characters in the sense of Unicode, wider than the blanks of the expression language itself: they
decide what an empty line is, where a command word ends, and what is trimmed from a setting.
-/

namespace GuardedExpr

def CodePoint.isBlank (c : CodePoint) : Bool :=
  c.val = 0x20 || (0x9 ≤ c.val && c.val ≤ 0xD) || (0x1C ≤ c.val && c.val ≤ 0x1F) || c.val = 0x85 ||
  c.val = 0xA0 || c.val = 0x1680 || (0x2000 ≤ c.val && c.val ≤ 0x200A) || c.val = 0x2028 ||
  c.val = 0x2029 || c.val = 0x202F || c.val = 0x205F || c.val = 0x3000

namespace Text

def trimEnd (t : Text) : Text :=
  (t.reverse.dropWhile CodePoint.isBlank).reverse

def trim (t : Text) : Text :=
  trimEnd (t.dropWhile CodePoint.isBlank)

def firstWord (t : Text) : Text × Text :=
  (t.takeWhile fun c => !c.isBlank, (t.dropWhile fun c => !c.isBlank).dropWhile CodePoint.isBlank)

def lower (t : Text) : Text :=
  t.map CodePoint.asciiLower

def upper (t : Text) : Text :=
  t.map CodePoint.asciiUpper

end Text

end GuardedExpr

import GuardedExpr.Text.Basic

/-!
Whole numbers in positional notation: writing in base ten and sixteen, and reading a run of digits.
-/

namespace GuardedExpr.Numeral

def decimal (n : Nat) : Text :=
  (Nat.toDigits 10 n).map CodePoint.ofChar

def signed : Int → Text
  | .ofNat n => decimal n
  | .negSucc n => Text.of "-" ++ decimal (n + 1)

def padded (width : Nat) (digits : Text) : Text :=
  List.replicate (width - digits.length) (CodePoint.ofChar '0') ++ digits

def hexadecimal (width n : Nat) : Text :=
  padded width ((Nat.toDigits 16 n).map CodePoint.ofChar)

def ofDigits (digits : Text) : Nat :=
  digits.foldl (fun n c => 10 * n + c.digitValue) 0

/-- The longest numeral that is converted to a whole number. -/
def digitLimit : Nat := 4300

def overlong? (n : Int) : Option Nat :=
  let digits := decimal n.natAbs
  if digitLimit < digits.length then some digits.length else none

def ofHex? (digits : Text) : Option Nat :=
  digits.foldl (fun n c => do return 16 * (← n) + (← c.hexValue?)) (some 0)

end GuardedExpr.Numeral

import GuardedExpr.Double.Rounding
import GuardedExpr.Text.Numeral

/-!
Decimal numerals: digits with at most one point among or beside them, and an optional exponent.
-/

namespace GuardedExpr

structure Decimal where
  coefficient : Nat
  exponent : Int
  deriving DecidableEq

namespace Decimal

def exponent? : Text → Option Int
  | [] => none
  | c :: rest =>
    let (negative, digits) :=
      if c = '-' then (true, rest) else if c = '+' then (false, rest) else (false, c :: rest)
    if digits.isEmpty || !digits.all CodePoint.isDigit then none
    else some (if negative then -(Numeral.ofDigits digits : Int) else Numeral.ofDigits digits)

def isMarker (c : CodePoint) : Bool :=
  c = 'e' || c = 'E'

/-- An unsigned numeral. At least one digit stands beside the point. -/
def ofText? (t : Text) : Option Decimal := do
  let mantissa := t.takeWhile fun c => !isMarker c
  let whole := mantissa.takeWhile fun c => c != CodePoint.ofChar '.'
  let fraction := (mantissa.dropWhile fun c => c != CodePoint.ofChar '.').drop 1
  let digits := whole ++ fraction
  if digits.isEmpty || !digits.all CodePoint.isDigit then none
  let scale ← match t.dropWhile fun c => !isMarker c with
    | [] => some 0
    | _ :: rest => exponent? rest
  return ⟨Numeral.ofDigits digits, scale - fraction.length⟩

end Decimal

namespace Double

def ofText? (t : Text) : Option Double :=
  (Decimal.ofText? t).map fun numeral => ofDecimal false numeral.coefficient numeral.exponent

def negate : Double → Double
  | .nan mark => .nan mark
  | .infinite negative => .infinite (!negative)
  | .finite negative rank => .finite (!negative) rank

end Double

end GuardedExpr

import GuardedExpr.Double.Basic

/-!
The number nearest to a quotient: a half goes to the even neighbour, and what lies beyond the largest
finite number by half a step or more is infinite.
-/

namespace GuardedExpr.Double

def halfEven (numerator denominator : Nat) : Nat :=
  let below := numerator / denominator
  let rest := numerator % denominator
  if 2 * rest > denominator || (2 * rest = denominator && below % 2 = 1) then below + 1 else below

def binaryExponent (numerator denominator : Nat) : Int :=
  let estimate : Int := numerator.log2 - denominator.log2
  let reached : Bool := match estimate with
    | .ofNat k => decide (denominator * Nat.pow 2 k ≤ numerator)
    | .negSucc k => decide (denominator ≤ numerator * Nat.pow 2 (k + 1))
  if reached then estimate else estimate - 1

/-- The rank nearest to a positive quotient. A mantissa that is rounded up to the next power of two
carries into the exponent by itself. -/
def nearestRank (numerator denominator : Nat) : Nat :=
  let exponent := max (binaryExponent numerator denominator - 52) (-1074)
  let mantissa := match exponent with
    | .ofNat k => halfEven numerator (denominator * Nat.pow 2 k)
    | .negSucc k => halfEven (numerator * Nat.pow 2 (k + 1)) denominator
  (exponent + 1074).toNat * binade + mantissa

/-- The number of a sign and a rank, infinite from the first rank that no finite number has. -/
def ofRank (negative : Bool) (rank : Nat) : Double :=
  if bound : rank < magnitudes then .finite negative ⟨rank, bound⟩ else .infinite negative

/-- The number nearest to a multiple of a power of ten. Exponents far outside the range are not
computed: 400 decimal places away from its ends everything is zero or infinite. -/
def ofDecimal (negative : Bool) (coefficient : Nat) (exponent : Int) : Double :=
  let size := (Nat.toDigits 10 coefficient).length
  if coefficient = 0 then ofRank negative 0
  else if exponent + size > 400 then .infinite negative
  else if exponent + size < -400 then ofRank negative 0
  else match exponent with
    | .ofNat k => ofRank negative (nearestRank (coefficient * Nat.pow 10 k) 1)
    | .negSucc k => ofRank negative (nearestRank coefficient (Nat.pow 10 (k + 1)))

end GuardedExpr.Double

/-!
Floating-point numbers of 64 bits, without arithmetic: the language reads, compares, shows and passes them
on. The finite ones of one sign are numbered in ascending order, so that every number has one form and
neighbours differ by one.
-/

namespace GuardedExpr

abbrev Double.binade : Nat := Nat.pow 2 52

abbrev Double.magnitudes : Nat := 2047 * Double.binade

/-- Every occurrence that is not a number carries a mark, since it equals itself and no other one. -/
inductive Double where
  | nan (mark : Nat)
  | infinite (negative : Bool)
  | finite (negative : Bool) (rank : Fin Double.magnitudes)
  deriving DecidableEq

namespace Double

def isZero : Double → Bool
  | .finite _ rank => rank.val = 0
  | _ => false

def isNaN : Double → Bool
  | .nan _ => true
  | _ => false

def zero : Double := .finite false ⟨0, by decide⟩

def parts (rank : Nat) : Nat × Int :=
  if rank < binade then (rank, -1074)
  else (binade + rank % binade, (rank / binade : Nat) - 1075)

def ratio (rank : Nat) : Nat × Nat :=
  match parts rank with
  | (mantissa, .ofNat k) => (mantissa * Nat.pow 2 k, 1)
  | (mantissa, .negSucc k) => (mantissa, Nat.pow 2 (k + 1))

def toInt? : Double → Option Int
  | .finite negative rank =>
    let (numerator, denominator) := ratio rank
    if numerator % denominator = 0 then
      let magnitude : Int := (numerator / denominator : Nat)
      some (if negative then -magnitude else magnitude)
    else none
  | _ => none

end Double

end GuardedExpr

import GuardedExpr.Double.Numeral

/-!
The fewest decimal digits that read back as the number. For one digit, two digits and so on, the two
multiples of the power of ten next to the exact value are read back; the first grid with a hit decides, and
of two hits the nearer one.
-/

namespace GuardedExpr.Double

def decimalExponent (numerator denominator : Nat) : Int :=
  let estimate : Int :=
    ((Nat.toDigits 10 numerator).length : Int) - (Nat.toDigits 10 denominator).length
  let reached : Bool := match estimate with
    | .ofNat k => decide (denominator * Nat.pow 10 k ≤ numerator)
    | .negSucc k => decide (denominator ≤ numerator * Nat.pow 10 (k + 1))
  if reached then estimate else estimate - 1

def scaled (numerator denominator : Nat) : Int → Nat × Nat
  | .ofNat k => (numerator, denominator * Nat.pow 10 k)
  | .negSucc k => (numerator * Nat.pow 10 (k + 1), denominator)

/-- The multiple of a power of ten that reads back as the rank, the nearer of two and of equally near
ones the even one. -/
def neighbour? (rank : Nat) (exponent : Int) : Option Nat :=
  let (numerator, denominator) := ratio rank
  let (numerator, denominator) := scaled numerator denominator exponent
  let below := numerator / denominator
  let reads (coefficient : Nat) : Bool :=
    ofDecimal false coefficient exponent = ofRank false rank
  let nearest := halfEven numerator denominator
  let other := if nearest = below then below + 1 else below
  if reads nearest then some nearest else if reads other then some other else none

/-- Searches the grids from a digit count on; if none has a hit, the exact value is written out. -/
def search (rank : Nat) (leading : Int) : Nat → Nat → Decimal
  | _, 0 =>
    let (numerator, denominator) := ratio rank
    ⟨numerator * Nat.pow 5 denominator.log2, -(denominator.log2 : Int)⟩
  | digits, grids + 1 =>
    match neighbour? rank (leading - digits) with
    | some coefficient => ⟨coefficient, leading - digits⟩
    | none => search rank leading (digits + 1) grids

def trimmed : Nat → Decimal → Decimal
  | 0, d => d
  | zeros + 1, d =>
    if d.coefficient % 10 = 0 && d.coefficient != 0 then
      trimmed zeros ⟨d.coefficient / 10, d.exponent + 1⟩
    else d

/-- The shortest decimal of a positive rank. Seventeen digits always suffice. -/
def shortest (rank : Nat) : Decimal :=
  let (numerator, denominator) := ratio rank
  let found := search rank (decimalExponent numerator denominator) 0 17
  trimmed (Nat.toDigits 10 found.coefficient).length found

/-- Digits with a point: positional from ten thousandths up to the sixteenth place, else with an exponent
of at least two digits. A whole number keeps one zero after its point. -/
def layout (digits : Text) (leading : Int) : Text :=
  let point := CodePoint.ofChar '.'
  let nought := CodePoint.ofChar '0'
  if -4 ≤ leading && leading < 16 then
    match leading with
    | .negSucc k => nought :: point :: List.replicate k nought ++ digits
    | .ofNat k =>
      let whole := digits.take (k + 1)
      let fraction := digits.drop (k + 1)
      whole ++ List.replicate (k + 1 - whole.length) nought ++ point ::
        (if fraction.isEmpty then [nought] else fraction)
  else
    let mantissa := match digits with
      | first :: second :: rest => first :: point :: second :: rest
      | _ => digits
    let sign := CodePoint.ofChar (if leading < 0 then '-' else '+')
    mantissa ++ CodePoint.ofChar 'e' :: sign :: Numeral.padded 2 (Numeral.decimal leading.natAbs)

def magnitudeText (rank : Nat) : Text :=
  if rank = 0 then Text.of "0.0"
  else
    let decimal := shortest rank
    let digits := Numeral.decimal decimal.coefficient
    layout digits (decimal.exponent + digits.length - 1)

/-- The shortest text that reads back as the number; the sign of zero is kept. -/
def text : Double → Text
  | .nan _ => Text.of "nan"
  | .infinite false => Text.of "inf"
  | .infinite true => Text.of "-inf"
  | .finite false rank => magnitudeText rank
  | .finite true rank => CodePoint.ofChar '-' :: magnitudeText rank

end GuardedExpr.Double

import GuardedExpr.Double.Shortest
import Mathlib.Algebra.Order.Ring.Nat
import Mathlib.Data.Nat.Digits.Defs
import Mathlib.Tactic.Ring

/-!
The number nearest to a quotient is that of the quotient, however it is expanded, and a number is the nearest to its own
magnitude. So a decimal means the same with zeros at its end, and the shortest decimal of a number reads back as the
number.
-/

namespace GuardedExpr.Double

variable {numerator denominator other divisor : Nat}

/-! Rounding to whole numbers. -/

theorem halfEven_scale {factor : Nat} (some_ : 0 < factor) (numerator denominator : Nat) :
    halfEven (numerator * factor) (denominator * factor) = halfEven numerator denominator := by
  have double (rest : Nat) : 2 * (rest * factor) = 2 * rest * factor := by ring
  have more (rest : Nat) : 2 * (rest * factor) > denominator * factor ↔ 2 * rest > denominator := by
    rw [double]
    exact Nat.mul_lt_mul_right some_
  have half (rest : Nat) : 2 * (rest * factor) = denominator * factor ↔ 2 * rest = denominator := by
    rw [double]
    exact Nat.mul_left_inj some_.ne'
  simp only [halfEven, Nat.mul_div_mul_right _ _ some_, Nat.mul_mod_mul_right, more, half]

private theorem halfEven_congr (some_ : 0 < denominator) (also : 0 < divisor)
    (same : numerator * divisor = other * denominator) : halfEven numerator denominator = halfEven other divisor := by
  rw [← halfEven_scale also numerator denominator, same, Nat.mul_comm denominator,
    halfEven_scale some_ other divisor]

theorem halfEven_mul (whole : Nat) (some_ : 0 < denominator) : halfEven (whole * denominator) denominator = whole := by
  have noHalf : ¬ 0 = denominator := by omega
  simp [halfEven, Nat.mul_div_cancel _ some_, noHalf]

/-! Powers of two. -/

def Reaches (numerator denominator : Nat) : Int → Prop
  | .ofNat k => denominator * Nat.pow 2 k ≤ numerator
  | .negSucc k => denominator ≤ numerator * Nat.pow 2 (k + 1)

theorem reaches_iff {exponent : Int} (up down : Nat) (split : exponent = up - down) :
    Reaches numerator denominator exponent ↔ denominator * 2 ^ up ≤ numerator * 2 ^ down := by
  cases exponent with
  | ofNat k =>
    have sum : up = k + down := by
      have cast : (k : Int) = up - down := split
      omega
    rw [sum, Nat.pow_add, ← Nat.mul_assoc]
    exact (Nat.mul_le_mul_right_iff (Nat.two_pow_pos down)).symm
  | negSucc k =>
    have sum : down = k + 1 + up := by omega
    rw [sum, Nat.pow_add, ← Nat.mul_assoc]
    exact (Nat.mul_le_mul_right_iff (Nat.two_pow_pos up)).symm

theorem Reaches.mono {low high : Int} (reaches : Reaches numerator denominator high) (le : low ≤ high) :
    Reaches numerator denominator low := by
  obtain ⟨step, rfl⟩ := Int.le.dest le
  obtain ⟨up, down, split⟩ : ∃ up down : Nat, low = up - down := ⟨low.toNat, (-low).toNat, by omega⟩
  have above := (reaches_iff (up + step) down (by omega)).mp reaches
  refine (reaches_iff up down split).mpr (Nat.le_trans (Nat.mul_le_mul_left _ ?_) above)
  exact Nat.pow_le_pow_right (by decide) (Nat.le_add_right _ _)

theorem Reaches.congr (some_ : 0 < denominator) (same : numerator * divisor = other * denominator) {exponent : Int}
    (reaches : Reaches numerator denominator exponent) : Reaches other divisor exponent := by
  obtain ⟨up, down, split⟩ : ∃ up down : Nat, exponent = up - down := ⟨exponent.toNat, (-exponent).toNat, by omega⟩
  have bound := (reaches_iff up down split).mp reaches
  refine (reaches_iff up down split).mpr (Nat.le_of_mul_le_mul_right (c := denominator) ?_ some_)
  calc divisor * 2 ^ up * denominator
      = denominator * 2 ^ up * divisor := by ring
    _ ≤ numerator * 2 ^ down * divisor := Nat.mul_le_mul_right _ bound
    _ = numerator * divisor * 2 ^ down := by ring
    _ = other * 2 ^ down * denominator := by rw [same]; ring

/-- The largest power of two that a quotient reaches has only one exponent. -/
theorem eq_of_reaches {one another : Int} (reaches : Reaches numerator denominator one)
    (last : ¬ Reaches numerator denominator (one + 1)) (also : Reaches numerator denominator another)
    (ends : ¬ Reaches numerator denominator (another + 1)) : one = another := by
  rcases Int.lt_trichotomy one another with less | same | more
  · exact absurd (also.mono less) last
  · exact same
  · exact absurd (reaches.mono more) ends

theorem reaches_binaryExponent (some_ : 0 < numerator) (also : 0 < denominator) :
    Reaches numerator denominator (binaryExponent numerator denominator) ∧
      ¬ Reaches numerator denominator (binaryExponent numerator denominator + 1) := by
  have lowNumerator := Nat.log2_self_le some_.ne'
  have highNumerator := Nat.lt_log2_self (n := numerator)
  have lowDenominator := Nat.log2_self_le also.ne'
  have highDenominator := Nat.lt_log2_self (n := denominator)
  have below : Reaches numerator denominator (numerator.log2 - denominator.log2 - 1) := by
    refine (reaches_iff numerator.log2 (denominator.log2 + 1) (by omega)).mpr ?_
    rw [Nat.mul_comm]
    exact Nat.mul_le_mul lowNumerator (Nat.le_of_lt highDenominator)
  have above : ¬ Reaches numerator denominator (numerator.log2 - denominator.log2 + 1) := by
    rw [reaches_iff (numerator.log2 + 1) denominator.log2 (by omega), Nat.not_le, Nat.mul_comm,
      Nat.mul_comm denominator]
    calc 2 ^ denominator.log2 * numerator
        < 2 ^ denominator.log2 * 2 ^ (numerator.log2 + 1) :=
          Nat.mul_lt_mul_of_pos_left highNumerator (Nat.two_pow_pos _)
      _ ≤ 2 ^ (numerator.log2 + 1) * denominator := by rw [Nat.mul_comm]; exact Nat.mul_le_mul_left _ lowDenominator
  have tested (estimate : Int) : (match estimate with
      | .ofNat k => decide (denominator * Nat.pow 2 k ≤ numerator)
      | .negSucc k => decide (denominator ≤ numerator * Nat.pow 2 (k + 1))) = true ↔
        Reaches numerator denominator estimate := by
    cases estimate <;> exact decide_eq_true_iff
  by_cases reached : Reaches numerator denominator (numerator.log2 - denominator.log2)
  · have exponent : binaryExponent numerator denominator = numerator.log2 - denominator.log2 :=
      if_pos ((tested _).mpr reached)
    rw [exponent]
    exact ⟨reached, above⟩
  · have exponent : binaryExponent numerator denominator = numerator.log2 - denominator.log2 - 1 :=
      if_neg (mt (tested _).mp reached)
    rw [exponent, Int.sub_add_cancel]
    exact ⟨below, reached⟩

theorem binaryExponent_eq {exponent : Int} (some_ : 0 < numerator) (also : 0 < denominator)
    (reaches : Reaches numerator denominator exponent) (last : ¬ Reaches numerator denominator (exponent + 1)) :
    binaryExponent numerator denominator = exponent := by
  obtain ⟨own, ends⟩ := reaches_binaryExponent some_ also
  exact eq_of_reaches own ends reaches last

private theorem binaryExponent_congr (some_ : 0 < numerator) (also : 0 < denominator)
    (more : 0 < other) (behind : 0 < divisor)
    (same : numerator * divisor = other * denominator) :
    binaryExponent numerator denominator = binaryExponent other divisor := by
  obtain ⟨reaches, ends⟩ := reaches_binaryExponent more behind
  exact binaryExponent_eq some_ also (reaches.congr behind same.symm) fun further => ends (further.congr also same)

/-! Ranks. -/

def units (numerator denominator : Nat) : Int → Nat
  | .ofNat k => halfEven numerator (denominator * Nat.pow 2 k)
  | .negSucc k => halfEven (numerator * Nat.pow 2 (k + 1)) denominator

theorem units_eq {exponent : Int} {up down : Nat} (split : exponent = up - down) :
    units numerator denominator exponent = halfEven (numerator * 2 ^ down) (denominator * 2 ^ up) := by
  cases exponent with
  | ofNat k =>
    have sum : up = k + down := by
      have cast : (k : Int) = up - down := split
      omega
    rw [sum, Nat.pow_add, ← Nat.mul_assoc]
    exact (halfEven_scale (Nat.two_pow_pos down) _ _).symm
  | negSucc k =>
    have sum : down = k + 1 + up := by omega
    rw [sum, Nat.pow_add, ← Nat.mul_assoc]
    exact (halfEven_scale (Nat.two_pow_pos up) _ _).symm

theorem nearestRank_eq (numerator denominator : Nat) : nearestRank numerator denominator =
    let exponent := max (binaryExponent numerator denominator - 52) (-1074)
    (exponent + 1074).toNat * binade + units numerator denominator exponent := by
  unfold nearestRank
  dsimp only
  generalize max (binaryExponent numerator denominator - 52) (-1074) = exponent
  cases exponent <;> rfl

theorem nearestRank_congr (some_ : 0 < numerator) (also : 0 < denominator) (more : 0 < other) (behind : 0 < divisor)
    (same : numerator * divisor = other * denominator) :
    nearestRank numerator denominator = nearestRank other divisor := by
  rw [nearestRank_eq, nearestRank_eq, binaryExponent_congr some_ also more behind same]
  generalize max (binaryExponent other divisor - 52) (-1074) = exponent
  obtain ⟨up, down, split⟩ : ∃ up down : Nat, exponent = up - down := ⟨exponent.toNat, (-exponent).toNat, by omega⟩
  have expand : numerator * 2 ^ down * (divisor * 2 ^ up) = other * 2 ^ down * (denominator * 2 ^ up) := by
    calc numerator * 2 ^ down * (divisor * 2 ^ up)
        = numerator * divisor * (2 ^ down * 2 ^ up) := by ring
      _ = other * 2 ^ down * (denominator * 2 ^ up) := by rw [same]; ring
  have units_ : units numerator denominator exponent = units other divisor exponent := by
    rw [units_eq split, units_eq split]
    exact halfEven_congr (Nat.mul_pos also (Nat.two_pow_pos _)) (Nat.mul_pos behind (Nat.two_pow_pos _)) expand
  dsimp only
  rw [units_]

theorem nearestRank_mul_two_pow {mantissa : Nat} (some_ : 0 < mantissa) (up down : Nat) :
    nearestRank (mantissa * 2 ^ up) (2 ^ down) =
      let exponent := max ((mantissa.log2 : Int) + up - down - 52) (-1074)
      (exponent + 1074).toNat * binade + units (mantissa * 2 ^ up) (2 ^ down) exponent := by
  have low := Nat.log2_self_le some_.ne'
  have high := Nat.lt_log2_self (n := mantissa)
  have exponent : binaryExponent (mantissa * 2 ^ up) (2 ^ down) = (mantissa.log2 : Int) + up - down := by
    refine binaryExponent_eq (Nat.mul_pos some_ (Nat.two_pow_pos _)) (Nat.two_pow_pos _) ?_ ?_
    · refine (reaches_iff (mantissa.log2 + up) down (by omega)).mpr ?_
      rw [Nat.mul_comm, Nat.pow_add]
      exact Nat.mul_le_mul_right _ (Nat.mul_le_mul_right _ low)
    · rw [reaches_iff (mantissa.log2 + 1 + up) down (by omega), Nat.not_le, Nat.mul_comm, Nat.pow_add]
      exact Nat.mul_lt_mul_of_pos_left (Nat.mul_lt_mul_of_pos_right high (Nat.two_pow_pos _)) (Nat.two_pow_pos _)
  rw [nearestRank_eq, exponent]

theorem ratio_eq (rank : Nat) : ∃ up down : Nat, ratio rank = ((parts rank).1 * 2 ^ up, 2 ^ down) ∧
    (parts rank).2 = up - down ∧ (up = 0 ∨ down = 0) := by
  unfold ratio
  rcases parts rank with ⟨mantissa, k | k⟩
  · exact ⟨k, 0, rfl, (Int.sub_zero _).symm, .inr rfl⟩
  · exact ⟨0, k + 1, by simp, by omega, .inl rfl⟩

private theorem nearestRank_ratio {rank : Nat} (some_ : 0 < rank) :
    nearestRank (ratio rank).1 (ratio rank).2 = rank := by
  obtain ⟨up, down, quotient, split, -⟩ := ratio_eq rank
  rw [quotient]
  dsimp only
  have size : binade = 2 ^ 52 := rfl
  by_cases small : rank < binade
  · have parts_ : parts rank = (rank, -1074) := if_pos small
    rw [parts_] at split ⊢
    dsimp only at split ⊢
    have log : rank.log2 < 52 := (Nat.log2_lt some_.ne').mpr small
    have exponent : max ((rank.log2 : Int) + up - down - 52) (-1074) = -1074 := by omega
    rw [nearestRank_mul_two_pow some_, exponent]
    dsimp only
    rw [units_eq split, Nat.mul_assoc, Nat.mul_comm (2 ^ down), halfEven_mul]
    · simp
    · exact Nat.mul_pos (Nat.two_pow_pos _) (Nat.two_pow_pos _)
  · have parts_ : parts rank = (binade + rank % binade, ((rank / binade : Nat) : Int) - 1075) := if_neg small
    rw [parts_] at split ⊢
    dsimp only at split ⊢
    have bound : rank % binade < binade := Nat.mod_lt _ (Nat.two_pow_pos 52)
    have whole : binade * (rank / binade) + rank % binade = rank := Nat.div_add_mod _ _
    have once : 1 ≤ rank / binade := Nat.div_pos (Nat.le_of_not_lt small) (Nat.two_pow_pos 52)
    have mantissa : 0 < binade + rank % binade := by omega
    have log : (binade + rank % binade).log2 = 52 := by
      refine (Nat.log2_eq_iff mantissa.ne').mpr ⟨?_, ?_⟩ <;> omega
    have exponent : max (((binade + rank % binade).log2 : Int) + up - down - 52) (-1074) = up - down := by omega
    rw [nearestRank_mul_two_pow mantissa, exponent]
    dsimp only
    rw [units_eq rfl, Nat.mul_assoc, Nat.mul_comm (2 ^ down), halfEven_mul]
    · have step : ((up : Int) - down + 1074).toNat = rank / binade - 1 := by omega
      have room : binade ≤ binade * (rank / binade) := Nat.le_mul_of_pos_right _ once
      rw [step, Nat.sub_mul, Nat.mul_comm (rank / binade)]
      omega
    · exact Nat.mul_pos (Nat.two_pow_pos _) (Nat.two_pow_pos _)

/-! Decimals. -/

private theorem length_toDigits_mul_ten {n : Nat} (some_ : 0 < n) :
    (Nat.toDigits 10 (n * 10)).length = (Nat.toDigits 10 n).length + 1 := by
  rw [Nat.toDigits_of_base_le (by decide) (by omega), Nat.mul_div_cancel _ (by decide), List.length_append]
  rfl

/-- Within the range that is computed, a decimal is the nearest number to a quotient. -/
theorem ofDecimal_eq (negative : Bool) {coefficient : Nat} (some_ : 0 < coefficient) {exponent : Int} (up down : Nat)
    (split : exponent = up - down) :
    ofDecimal negative coefficient exponent =
      let magnitude := exponent + (Nat.toDigits 10 coefficient).length
      if magnitude > 400 then .infinite negative
      else if magnitude < -400 then ofRank negative 0
      else ofRank negative (nearestRank (coefficient * 10 ^ up) (10 ^ down)) := by
  have power (k : Nat) : 0 < 10 ^ k := Nat.pow_pos (by decide)
  unfold ofDecimal
  dsimp only
  rw [if_neg some_.ne']
  congr 2
  cases exponent with
  | ofNat k =>
    have sum : up = k + down := by
      have cast : (k : Int) = up - down := split
      omega
    change ofRank negative (nearestRank (coefficient * 10 ^ k) 1) = _
    rw [nearestRank_congr (Nat.mul_pos some_ (power k)) Nat.one_pos (Nat.mul_pos some_ (power up)) (power down)]
    rw [sum, Nat.pow_add]
    ring
  | negSucc k =>
    have sum : down = k + 1 + up := by omega
    change ofRank negative (nearestRank coefficient (10 ^ (k + 1))) = _
    rw [nearestRank_congr some_ (power (k + 1)) (Nat.mul_pos some_ (power up)) (power down)]
    rw [sum, Nat.pow_add]
    ring

/-- A zero at the end of a coefficient is the same as one more in the exponent. -/
theorem ofDecimal_mul_ten (negative : Bool) (coefficient : Nat) (exponent : Int) :
    ofDecimal negative (coefficient * 10) exponent = ofDecimal negative coefficient (exponent + 1) := by
  by_cases zero : coefficient = 0
  · subst zero
    simp [ofDecimal]
  have some_ : 0 < coefficient := Nat.pos_of_ne_zero zero
  obtain ⟨up, down, split⟩ : ∃ up down : Nat, exponent = up - down := ⟨exponent.toNat, (-exponent).toNat, by omega⟩
  have size : exponent + ((Nat.toDigits 10 coefficient).length + 1 : Nat) =
      exponent + 1 + (Nat.toDigits 10 coefficient).length := by omega
  rw [ofDecimal_eq negative (by omega : 0 < coefficient * 10) up down split,
    ofDecimal_eq negative some_ (up + 1) down (by omega), length_toDigits_mul_ten some_, size,
    Nat.pow_succ', Nat.mul_assoc]

theorem ofDecimal_mul_ten_pow (negative : Bool) (coefficient zeros : Nat) (exponent : Int) :
    ofDecimal negative (coefficient * 10 ^ zeros) exponent = ofDecimal negative coefficient (exponent + zeros) := by
  induction zeros generalizing exponent with
  | zero => simp
  | succ zeros hypothesis =>
    rw [Nat.pow_succ, ← Nat.mul_assoc, ofDecimal_mul_ten, hypothesis]
    congr 1
    omega

def ofUnsigned (decimal : Decimal) : Double :=
  ofDecimal false decimal.coefficient decimal.exponent

private theorem ofUnsigned_trimmed (zeros : Nat) (decimal : Decimal) :
    ofUnsigned (trimmed zeros decimal) = ofUnsigned decimal := by
  induction zeros generalizing decimal with
  | zero => rfl
  | succ zeros hypothesis =>
    rw [trimmed]
    split
    · next round =>
      simp only [Bool.and_eq_true, decide_eq_true_eq] at round
      rw [hypothesis]
      have whole : decimal.coefficient / 10 * 10 = decimal.coefficient := by omega
      rw [ofUnsigned, ← ofDecimal_mul_ten, whole, ofUnsigned]
    · rfl

private theorem ofDecimal_of_neighbour? {rank coefficient : Nat} {exponent : Int}
    (found : neighbour? rank exponent = some coefficient) :
    ofDecimal false coefficient exponent = ofRank false rank := by
  unfold neighbour? at found
  simp only [decide_eq_true_eq] at found
  split_ifs at found with nearest _ above below <;> cases found
  · exact nearest
  · exact above
  · exact below

private theorem parts_bounds {rank : Nat} (some_ : 0 < rank) (finite : rank < magnitudes) :
    0 < (parts rank).1 ∧ (parts rank).1 < 2 ^ 53 ∧ -1074 ≤ (parts rank).2 ∧ (parts rank).2 ≤ 971 := by
  have size : binade = 2 ^ 52 := rfl
  unfold parts
  split
  · next small =>
    dsimp only
    omega
  · next large =>
    have bound : rank % binade < binade := Nat.mod_lt _ (Nat.two_pow_pos 52)
    have once : 1 ≤ rank / binade := Nat.div_pos (Nat.le_of_not_lt large) (Nat.two_pow_pos 52)
    have last : rank / binade < 2047 := (Nat.div_lt_iff_lt_mul (Nat.two_pow_pos 52)).mpr finite
    dsimp only
    omega

theorem two_pow_le_ten_pow {n k : Nat} (le : n ≤ 3 * k) : 2 ^ n ≤ 10 ^ k := by
  calc 2 ^ n
      ≤ 2 ^ (3 * k) := Nat.pow_le_pow_right (by decide) le
    _ = 8 ^ k := Nat.pow_mul ..
    _ ≤ 10 ^ k := Nat.pow_le_pow_left (by decide) k

private theorem ofDecimal_exact {rank : Nat} (some_ : 0 < rank) (finite : rank < magnitudes) :
    ofDecimal false ((ratio rank).1 * 5 ^ (ratio rank).2.log2) (-((ratio rank).2.log2 : Int)) = ofRank false rank := by
  have near := nearestRank_ratio some_
  obtain ⟨up, down, quotient, split, single⟩ := ratio_eq rank
  obtain ⟨whole, short, low, high⟩ := parts_bounds some_ finite
  rw [quotient] at near ⊢
  dsimp only at near ⊢
  generalize (parts rank).1 = mantissa at *
  rw [Nat.log2_two_pow]
  have five : 0 < 5 ^ down := Nat.pow_pos (by decide)
  have numerator : 0 < mantissa * 2 ^ up := Nat.mul_pos whole (Nat.two_pow_pos _)
  have coefficient : 0 < mantissa * 2 ^ up * 5 ^ down := Nat.mul_pos numerator five
  have tens : 10 ^ down = 2 ^ down * 5 ^ down := by rw [← Nat.mul_pow]
  rw [ofDecimal_eq false coefficient 0 down (by omega)]
  have largest : (Nat.toDigits 10 (mantissa * 2 ^ up * 5 ^ down)).length ≤ 400 + down := by
    refine (Nat.length_toDigits_le_iff (by decide) (by omega)).mpr ?_
    have power : 2 ^ up ≤ 2 ^ (971 + down) := Nat.pow_le_pow_right (by decide) (by omega)
    calc mantissa * 2 ^ up * 5 ^ down
        < 2 ^ 53 * 2 ^ (971 + down) * 5 ^ down :=
          Nat.mul_lt_mul_of_pos_right (Nat.mul_lt_mul_of_lt_of_le short power (Nat.two_pow_pos _)) five
      _ = 2 ^ 1024 * 10 ^ down := by rw [tens, ← Nat.pow_add, ← Nat.mul_assoc, ← Nat.pow_add, ← Nat.add_assoc]
      _ ≤ 10 ^ 400 * 10 ^ down := Nat.mul_le_mul_right _ (two_pow_le_ten_pow (by decide))
      _ = 10 ^ (400 + down) := by rw [Nat.pow_add 10 400]
  have smallest : ¬ (Nat.toDigits 10 (mantissa * 2 ^ up * 5 ^ down)).length + 400 < down := by
    intro less
    have bound := (Nat.length_toDigits_le_iff (b := 10) (k := down - 400) (n := mantissa * 2 ^ up * 5 ^ down)
      (by decide) (by omega)).mp (by omega)
    have power : 10 ^ (down - 400) * 2 ^ down ≤ 5 ^ down * 2 ^ down := by
      calc 10 ^ (down - 400) * 2 ^ down
          ≤ 10 ^ (down - 400) * 2 ^ 1074 := Nat.mul_le_mul_left _ (Nat.pow_le_pow_right (by decide) (by omega))
        _ ≤ 10 ^ (down - 400) * 10 ^ 400 := Nat.mul_le_mul_left _ (two_pow_le_ten_pow (by decide))
        _ = 5 ^ down * 2 ^ down := by rw [← Nat.pow_add, Nat.sub_add_cancel (by omega), tens, Nat.mul_comm]
    have fives := Nat.le_of_mul_le_mul_right power (Nat.two_pow_pos down)
    have own : 5 ^ down ≤ mantissa * 2 ^ up * 5 ^ down := Nat.le_mul_of_pos_left _ numerator
    omega
  dsimp only
  rw [if_neg (by omega), if_neg (by omega)]
  refine congrArg (ofRank false) (Eq.trans (nearestRank_congr ?_ ?_ numerator (Nat.two_pow_pos down) ?_) near)
  · omega
  · exact Nat.pow_pos (by decide)
  · rw [tens]
    ring

private theorem ofUnsigned_search {rank : Nat} (some_ : 0 < rank) (finite : rank < magnitudes)
    (leading : Int)
    (digits grids : Nat) : ofUnsigned (search rank leading digits grids) = ofRank false rank := by
  induction grids generalizing digits with
  | zero => exact ofDecimal_exact some_ finite
  | succ grids hypothesis =>
    rw [search]
    split
    · next coefficient found => exact ofDecimal_of_neighbour? found
    · exact hypothesis (digits + 1)

theorem ofUnsigned_shortest {rank : Nat} (some_ : 0 < rank) (finite : rank < magnitudes) :
    ofUnsigned (shortest rank) = ofRank false rank := by
  rw [shortest, ofUnsigned_trimmed]
  exact ofUnsigned_search some_ finite _ _ _

end GuardedExpr.Double

import GuardedExpr.Proofs.Double.NearestDouble
import GuardedExpr.Proofs.Token.NumberScanning

/-!
Numbers read back. Whole numbers are spelled by their digits, and the text of a finite number reads as the number, in
whichever of its forms it is laid out; so no two numbers have the same text.
-/

namespace GuardedExpr

open Lexeme (isDigitOrPoint_iff not_isMarker_of_isDigitOrPoint point span_of_all)

namespace Numeral

variable {digits : Text}

theorem digitChar_isDigit : ∀ d < 10, (CodePoint.ofChar (Nat.digitChar d)).isDigit ∧
    (CodePoint.ofChar (Nat.digitChar d)).digitValue = d := by
  decide

theorem decimal_spells (n : Nat) : (∀ c ∈ decimal n, c.isDigit) ∧ ofDigits (decimal n) = n := by
  unfold decimal
  induction n using Nat.strongRecOn with
  | ind n hypothesis =>
    by_cases small : n < 10
    · obtain ⟨digit, value⟩ := digitChar_isDigit n small
      rw [Nat.toDigits_of_lt_base small]
      refine ⟨fun c member => ?_, ?_⟩
      · rw [List.mem_singleton.mp member]
        exact digit
      · change ofDigits ([] ++ [CodePoint.ofChar (Nat.digitChar n)]) = n
        rw [ofDigits_concat, value]
        exact Nat.zero_add n
    · obtain ⟨all, spells⟩ := hypothesis (n / 10) (by omega)
      obtain ⟨digit, value⟩ := digitChar_isDigit (n % 10) (Nat.mod_lt n (by decide))
      rw [Nat.toDigits_of_base_le (by decide) (Nat.le_of_not_lt small), List.map_append, List.map_singleton]
      refine ⟨fun c member => ?_, ?_⟩
      · rcases List.mem_append.mp member with front | last
        · exact all c front
        · rw [List.mem_singleton.mp last]
          exact digit
      · rw [ofDigits_concat, spells, value]
        exact Nat.div_add_mod n 10

theorem decimal_injective : Function.Injective decimal := by
  intro n m same
  rw [← (decimal_spells n).2, same, (decimal_spells m).2]

theorem decimal_ne_nil (n : Nat) : decimal n ≠ [] := by
  have some_ : 0 < (Nat.toDigits 10 n).length := Nat.length_toDigits_pos
  intro none_
  have length := congrArg List.length none_
  simp only [decimal, List.length_map, List.length_nil] at length
  omega

theorem ofDigits_zeros (count : Nat) (digits : Text) :
    ofDigits (List.replicate count (CodePoint.ofChar '0') ++ digits) = ofDigits digits := by
  induction count with
  | zero => rfl
  | succ count hypothesis => exact hypothesis

private theorem ofDigits_append_zeros (digits : Text) (count : Nat) :
    ofDigits (digits ++ List.replicate count (CodePoint.ofChar '0')) = ofDigits digits * 10 ^ count := by
  induction count with
  | zero => simp
  | succ count hypothesis =>
    have zero : (CodePoint.ofChar '0').digitValue = 0 := rfl
    rw [List.replicate_succ', ← List.append_assoc, ofDigits_concat, hypothesis, zero, Nat.pow_succ]
    ring

theorem isDigit_of_mem_zeros {count : Nat} {c : CodePoint} (member : c ∈ List.replicate count (CodePoint.ofChar '0')) :
    c.isDigit := by
  rw [List.eq_of_mem_replicate member]
  rfl

private theorem padded_spells (width n : Nat) :
    (∀ c ∈ padded width (decimal n), c.isDigit) ∧ ofDigits (padded width (decimal n)) = n := by
  refine ⟨fun c member => ?_, ?_⟩
  · exact (List.mem_append.mp member).elim isDigit_of_mem_zeros ((decimal_spells n).1 c)
  · rw [padded, ofDigits_zeros, (decimal_spells n).2]

end Numeral

namespace Decimal

open Numeral (ofDigits)

private theorem exponent?_signed (leading : Int) :
    exponent? (CodePoint.ofChar (if leading < 0 then '-' else '+') ::
      Numeral.padded 2 (Numeral.decimal leading.natAbs)) = some leading := by
  obtain ⟨all, spells⟩ := Numeral.padded_spells 2 leading.natAbs
  have some_ : (Numeral.padded 2 (Numeral.decimal leading.natAbs)).isEmpty = false := by
    simp [Numeral.padded, Numeral.decimal_ne_nil]
  have each : (Numeral.padded 2 (Numeral.decimal leading.natAbs)).all CodePoint.isDigit := List.all_eq_true.mpr all
  by_cases below : leading < 0
  · have magnitude : -(leading.natAbs : Int) = leading := by omega
    simp [exponent?, below, some_, each, spells, magnitude, -Nat.cast_natAbs]
  · have magnitude : (leading.natAbs : Int) = leading := by omega
    have plus : CodePoint.ofChar '+' ≠ CodePoint.ofChar '-' := by decide
    simp [exponent?, below, some_, each, spells, magnitude, plus, -Nat.cast_natAbs]

private theorem parted_of_spelled {whole fraction mantissa : Text}
    (spelled : mantissa = whole ∧ fraction = [] ∨ mantissa = whole ++ point :: fraction)
    (all : ∀ c ∈ whole, c.isDigit) :
    mantissa.takeWhile (fun c => c != point) = whole ∧ (mantissa.dropWhile fun c => c != point).drop 1 = fraction := by
  have noPoint (c : CodePoint) (member : c ∈ whole) : (c != point) = true := by
    refine bne_iff_ne.mpr ?_
    rintro rfl
    exact absurd (all point member) (by decide)
  rcases spelled with ⟨rfl, rfl⟩ | rfl
  · have split := @span_of_all _ _ mantissa [] noPoint (by rintro c ⟨⟩)
    rw [List.append_nil] at split
    exact ⟨split.1, by rw [split.2]; rfl⟩
  · have split := @span_of_all _ _ whole (point :: fraction) noPoint (by rintro c ⟨⟩; rfl)
    exact ⟨split.1, by rw [split.2]; rfl⟩

theorem ofText?_eq {whole fraction mantissa tail : Text} {scale : Int}
    (spelled : mantissa = whole ∧ fraction = [] ∨ mantissa = whole ++ point :: fraction)
    (some_ : whole ++ fraction ≠ []) (all : ∀ c ∈ whole ++ fraction, c.isDigit)
    (scaled : tail = [] ∧ scale = 0 ∨ ∃ rest, tail = CodePoint.ofChar 'e' :: rest ∧ exponent? rest = some scale) :
    ofText? (mantissa ++ tail) = some ⟨ofDigits (whole ++ fraction), scale - fraction.length⟩ := by
  obtain ⟨inWhole, inFraction⟩ := List.forall_mem_append.mp all
  have among : ∀ c ∈ mantissa, c.isDigitOrPoint := by
    intro c member
    refine isDigitOrPoint_iff.mpr ?_
    rcases spelled with ⟨rfl, _⟩ | rfl
    · exact .inl (inWhole c member)
    · rcases List.mem_append.mp member with front | behind
      · exact .inl (inWhole c front)
      · exact (List.mem_cons.mp behind).symm.imp_left (inFraction c)
  have inside : ∀ c ∈ mantissa, (!isMarker c) = true := fun c member => by
    rw [not_isMarker_of_isDigitOrPoint (among c member)]
    rfl
  have stops : ∀ c ∈ tail.head?, (!isMarker c) = false := by
    rcases scaled with ⟨rfl, _⟩ | ⟨rest, rfl, _⟩
    · rintro c ⟨⟩
    · rintro c ⟨⟩
      rfl
  obtain ⟨front, behind⟩ := span_of_all inside stops
  obtain ⟨wholeParted, fractionParted⟩ := parted_of_spelled spelled inWhole
  have full : (whole ++ fraction).isEmpty = false := List.isEmpty_eq_false_iff.mpr some_
  have digits : (whole ++ fraction).all CodePoint.isDigit := List.all_eq_true.mpr all
  unfold ofText?
  simp only [front, behind, show CodePoint.ofChar '.' = point from rfl, wholeParted, fractionParted, full, digits]
  rcases scaled with ⟨rfl, rfl⟩ | ⟨rest, rfl, read⟩
  · rfl
  · simp only [read]
    rfl

private theorem ofText?_minus (t : Text) : ofText? (CodePoint.ofChar '-' :: t) = none := by
  unfold ofText?
  rfl

end Decimal

namespace Double

open Numeral (ofDigits)

def Reads (t : Text) (decimal : Decimal) : Prop :=
  ∃ read, Decimal.ofText? t = some read ∧ ofUnsigned read = ofUnsigned decimal

section Layout

variable {digits : Text} (all : ∀ c ∈ digits, c.isDigit) (some_ : digits ≠ [])

include all in
private theorem reads_fraction (k : Nat) :
    Reads (CodePoint.ofChar '0' :: CodePoint.ofChar '.' :: List.replicate k (CodePoint.ofChar '0') ++ digits)
      ⟨ofDigits digits, -(k + digits.length : Nat)⟩ := by
  have each : ∀ c ∈ Text.of "0" ++ (List.replicate k (CodePoint.ofChar '0') ++ digits), c.isDigit := by
    intro c member
    rcases List.mem_append.mp member with first | rest
    · rw [List.mem_singleton.mp first]
      rfl
    · exact (List.mem_append.mp rest).elim Numeral.isDigit_of_mem_zeros (all c)
  have read := @Decimal.ofText?_eq _ _ _ [] _ (.inr rfl) (List.cons_ne_nil _ _) each (.inl ⟨rfl, rfl⟩)
  have value : ofDigits (Text.of "0" ++ (List.replicate k (CodePoint.ofChar '0') ++ digits)) = ofDigits digits :=
    Numeral.ofDigits_zeros (k + 1) digits
  have scale : 0 - ((List.replicate k (CodePoint.ofChar '0') ++ digits).length : Int) = -(k + digits.length : Nat) := by
    rw [List.length_append, List.length_replicate]
    omega
  rw [List.append_nil, value, scale] at read
  exact ⟨_, read, rfl⟩

include all some_ in
private theorem reads_positional (k : Nat) :
    Reads (digits.take (k + 1) ++ List.replicate (k + 1 - (digits.take (k + 1)).length) (CodePoint.ofChar '0') ++
        CodePoint.ofChar '.' :: (if (digits.drop (k + 1)).isEmpty then [CodePoint.ofChar '0'] else digits.drop (k + 1)))
      ⟨ofDigits digits, k + 1 - digits.length⟩ := by
  by_cases long : k + 1 < digits.length
  · have whole : digits.take (k + 1) ++ digits.drop (k + 1) = digits := List.take_append_drop _ _
    have fraction : (digits.drop (k + 1)).isEmpty = false := by simpa using long
    have width : k + 1 - (digits.take (k + 1)).length = 0 := by
      rw [List.length_take]
      omega
    have read := @Decimal.ofText?_eq (digits.take (k + 1)) (digits.drop (k + 1)) _ [] _
      (.inr rfl) (by rw [whole]; exact some_) (by rw [whole]; exact all) (.inl ⟨rfl, rfl⟩)
    have scale : 0 - ((digits.drop (k + 1)).length : Int) = k + 1 - digits.length := by
      rw [List.length_drop]
      omega
    rw [List.append_nil, whole, scale] at read
    rw [fraction, width, List.replicate_zero, List.append_nil]
    exact ⟨_, read, rfl⟩
  · -- all digits stand before the point, with zeros behind them that the exponent takes up again
    have full : digits.take (k + 1) = digits := List.take_of_length_le (Nat.le_of_not_lt long)
    have none_ : digits.drop (k + 1) = [] := List.drop_of_length_le (Nat.le_of_not_lt long)
    have zeros : digits ++ List.replicate (k + 1 - digits.length) (CodePoint.ofChar '0') ++ [CodePoint.ofChar '0'] =
        digits ++ List.replicate (k + 1 - digits.length + 1) (CodePoint.ofChar '0') := by
      rw [List.append_assoc, List.replicate_succ']
    have each : ∀ c ∈ digits ++ List.replicate (k + 1 - digits.length + 1) (CodePoint.ofChar '0'), c.isDigit :=
      fun c member => (List.mem_append.mp member).elim (all c) Numeral.isDigit_of_mem_zeros
    have read := @Decimal.ofText?_eq (digits ++ List.replicate (k + 1 - digits.length) (CodePoint.ofChar '0'))
      [CodePoint.ofChar '0'] _ [] _ (.inr rfl)
      (by simp) (by rw [zeros]; exact each) (.inl ⟨rfl, rfl⟩)
    rw [List.append_nil, zeros, Numeral.ofDigits_append_zeros] at read
    rw [full, none_]
    refine ⟨_, read, ?_⟩
    rw [ofUnsigned, ofUnsigned]
    dsimp only
    rw [ofDecimal_mul_ten_pow]
    have scale : 0 - ([CodePoint.ofChar '0'].length : Int) + (k + 1 - digits.length + 1 : Nat) =
        k + 1 - digits.length := by
      rw [List.length_singleton]
      omega
    rw [scale]

include all in
theorem reads_scientific {first : CodePoint} {others : Text} (same : digits = first :: others) {mantissa : Text}
    (spelled : mantissa = [first] ∧ others = [] ∨ mantissa = [first] ++ CodePoint.ofChar '.' :: others)
    (leading : Int) :
    Reads (mantissa ++ CodePoint.ofChar 'e' :: CodePoint.ofChar (if leading < 0 then '-' else '+') ::
      Numeral.padded 2 (Numeral.decimal leading.natAbs)) ⟨ofDigits digits, leading + 1 - digits.length⟩ := by
  subst same
  have read := Decimal.ofText?_eq spelled (List.cons_ne_nil _ _) all (.inr ⟨_, rfl, Decimal.exponent?_signed leading⟩)
  have scale : leading - (others.length : Int) = leading + 1 - ((first :: others).length : Nat) := by
    rw [List.length_cons]
    omega
  rw [scale] at read
  exact ⟨_, read, rfl⟩

end Layout

private theorem reads_layout (coefficient : Nat) (exponent : Int) :
    Reads (layout (Numeral.decimal coefficient) (exponent + (Numeral.decimal coefficient).length - 1))
      ⟨coefficient, exponent⟩ := by
  obtain ⟨all, spells⟩ := Numeral.decimal_spells coefficient
  have some_ := Numeral.decimal_ne_nil coefficient
  generalize Numeral.decimal coefficient = digits at *
  subst spells
  generalize place : exponent + (digits.length : Int) - 1 = leading
  unfold layout
  dsimp only
  split
  · cases leading with
    | negSucc k =>
      have scale : exponent = -(k + digits.length : Nat) := by omega
      rw [scale]
      exact reads_fraction all k
    | ofNat k =>
      have scale : exponent = k + 1 - digits.length := by
        have cast : exponent + digits.length - 1 = (k : Int) := place
        omega
      rw [scale]
      exact reads_positional all some_ k
  · have scale : exponent = leading + 1 - digits.length := by omega
    rw [scale]
    obtain ⟨first, others, rfl⟩ := List.exists_cons_of_ne_nil some_
    cases others with
    | nil => exact reads_scientific all rfl (.inl ⟨rfl, rfl⟩) leading
    | cons second rest => exact reads_scientific all rfl (.inr rfl) leading

theorem ofText?_magnitudeText (rank : Fin magnitudes) : ofText? (magnitudeText rank) = some (.finite false rank) := by
  have ranked : ofRank false rank = .finite false rank := dif_pos rank.isLt
  unfold magnitudeText ofText?
  by_cases zero : rank.val = 0
  · rw [if_pos zero, ← ranked, zero]
    rfl
  · rw [if_neg zero]
    dsimp only
    obtain ⟨read, found, same⟩ := reads_layout (shortest rank).coefficient (shortest rank).exponent
    rw [found, ← ranked, ← ofUnsigned_shortest (Nat.pos_of_ne_zero zero) rank.isLt]
    exact congrArg some same

def unmarked : Double → Double
  | .nan _ => .nan 0
  | x => x

theorem magnitudeText_ne {word : Text} (unread : ofText? word = none) (rank : Fin magnitudes) :
    magnitudeText rank ≠ word := by
  rintro rfl
  rw [ofText?_magnitudeText] at unread
  cases unread

/-- The number that a text shows: a word for what is not finite, else a numeral with a sign in front of it if it is
negative. -/
def ofShown (t : Text) : Double :=
  if t = Text.of "nan" then .nan 0
  else if t = Text.of "inf" then .infinite false
  else if t = Text.of "-inf" then .infinite true
  else match ofText? t with
    | some x => x
    | none => ((ofText? t.tail).map negate).getD (.nan 0)

theorem ofShown_text (x : Double) : ofShown x.text = x.unmarked := by
  match x with
  | .nan _ | .infinite false | .infinite true => rfl
  | .finite false rank =>
    have text : (finite false rank).text = magnitudeText rank := rfl
    rw [text, ofShown, if_neg (magnitudeText_ne rfl rank), if_neg (magnitudeText_ne rfl rank),
      if_neg (magnitudeText_ne rfl rank), ofText?_magnitudeText]
    rfl
  | .finite true rank =>
    have text : (finite true rank).text = CodePoint.ofChar '-' :: magnitudeText rank := rfl
    have noWord : CodePoint.ofChar '-' :: magnitudeText rank ≠ Text.of "-inf" :=
      fun same => magnitudeText_ne rfl rank (List.cons.inj same).2
    have unsigned : ofText? (CodePoint.ofChar '-' :: magnitudeText rank) = none := by
      rw [ofText?, Decimal.ofText?_minus]
      rfl
    have noLetter {word : Text} (letter : word.head? ≠ some (CodePoint.ofChar '-')) :
        CodePoint.ofChar '-' :: magnitudeText rank ≠ word := fun same => letter (same ▸ rfl)
    rw [text, ofShown, if_neg (noLetter (by decide)), if_neg (noLetter (by decide)), if_neg noWord, unsigned,
      List.tail_cons, ofText?_magnitudeText]
    rfl

end Double

end GuardedExpr

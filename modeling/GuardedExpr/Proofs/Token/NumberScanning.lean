import GuardedExpr.Proofs.Token.SourceDivision
import Mathlib.Data.List.Induction
import Mathlib.Data.Nat.Digits.Defs

/-!
Numbers: how far one reaches from the place where it begins, and what value it has. Scanning and conversion are two
functions, and the second is total on what the first can take: whatever is taken has digits beside its points, and an
exponent that the conversion reads as well.
-/

namespace GuardedExpr

theorem Numeral.ofDigits_concat (digits : Text) (last : CodePoint) :
    ofDigits (digits ++ [last]) = 10 * ofDigits digits + last.digitValue := by
  simp [ofDigits]

namespace Lexeme

variable {t body exponent digits after text : Text} {c : CodePoint}

def IsRun (p : CodePoint → Bool) (run after : Text) : Prop :=
  (∀ c ∈ run, p c) ∧ ∀ c ∈ after.head?, p c = false

def IsSign (sign behind : Text) : Prop :=
  sign = Text.of "+" ∨ sign = Text.of "-" ∨ sign = [] ∧ ∀ c ∈ behind.head?, c ≠ '+' ∧ c ≠ '-'

/-- What is taken as an exponent before the rest of a text, and the digits in it. Where no marker comes next it is
nothing; else the marker, a sign and a run of digits, which may be empty. -/
inductive TakesExponent : Text → Text → Text → Prop where
  | absent {after : Text} (unmarked : ∀ c ∈ after.head?, Decimal.isMarker c = false) : TakesExponent [] [] after
  | marked {marker : CodePoint} {sign digits after : Text} (marks : Decimal.isMarker marker)
      (signs : IsSign sign (digits ++ after)) (run : IsRun CodePoint.isDigit digits after) :
      TakesExponent (marker :: (sign ++ digits)) digits after

structure NumberAt (t body exponent digits after : Text) : Prop where
  whole : t = body ++ exponent ++ after
  run : IsRun CodePoint.isDigitOrPoint body (exponent ++ after)
  taken : TakesExponent exponent digits after

def LacksDigits (exponent digits : Text) : Prop :=
  exponent ≠ [] ∧ digits = []

instance (exponent digits : Text) : Decidable (LacksDigits exponent digits) :=
  inferInstanceAs (Decidable (_ ∧ _))

def point : CodePoint := CodePoint.ofChar '.'

/-- The value of a number. It is whole exactly if there are only digits, and then what these digits spell; it is no
number exactly if there are two points or more; and otherwise it is the double nearest to the numeral. -/
structure IsValueOf (text : Text) (value : Value) : Prop where
  whole_iff : (∃ n, value = .int n) ↔ ∀ c ∈ text, c.isDigit
  spelled : (∀ c ∈ text, c.isDigit) →
    value = .int (Nat.ofDigits 10 (text.reverse.map CodePoint.digitValue) : Nat)
  nan_iff : (∃ mark, value = .float (.nan mark)) ↔ 2 ≤ text.count point
  nearest : (¬ ∀ c ∈ text, c.isDigit) → text.count point < 2 →
    ∃ x, Double.ofText? text = some x ∧ value = .float x

/-! What is taken. -/

theorem isRun_takeWhile (p : CodePoint → Bool) (t : Text) : IsRun p (t.takeWhile p) (t.dropWhile p) :=
  ⟨fun _ => List.mem_takeWhile_imp, head?_dropWhile⟩

private theorem isSign_sign (t : Text) : IsSign (sign t) (t.drop (sign t).length) := by
  cases t with
  | nil => exact .inr (.inr ⟨rfl, nofun⟩)
  | cons c rest =>
    by_cases plus : c = '+'
    · exact .inl (by rw [plus]; rfl)
    · by_cases minus : c = '-'
      · exact .inr (.inl (by rw [minus]; rfl))
      · have unsigned : sign (c :: rest) = [] := by simp [sign, plus, minus]
        rw [unsigned]
        exact .inr (.inr ⟨rfl, fun d first => by cases first; exact ⟨plus, minus⟩⟩)

private theorem exists_takesExponent (t : Text) :
    ∃ taken digits after, t = taken ++ after ∧ TakesExponent taken digits after ∧
    Lexeme.exponent t = if taken = [] then .absent else if digits = [] then .malformed taken else .present taken := by
  cases t with
  | nil => exact ⟨[], [], [], rfl, .absent nofun, rfl⟩
  | cons c t =>
    by_cases marks : Decimal.isMarker c
    · have behind : t = sign t ++ t.drop (sign t).length := (sign_append_drop t).symm
      generalize shown : t.drop (sign t).length = tail at behind
      have split : tail = tail.takeWhile CodePoint.isDigit ++ tail.dropWhile CodePoint.isDigit :=
        List.takeWhile_append_dropWhile.symm
      have signs : IsSign (sign t) tail := shown ▸ isSign_sign t
      rw [split] at signs
      refine ⟨c :: (sign t ++ tail.takeWhile CodePoint.isDigit), tail.takeWhile CodePoint.isDigit,
        tail.dropWhile CodePoint.isDigit, ?_, .marked marks signs (isRun_takeWhile _ _), ?_⟩
      · rw [List.cons_append, List.append_assoc, ← split, ← behind]
      · rw [Lexeme.exponent, if_pos marks, if_neg (List.cons_ne_nil _ _)]
        dsimp only
        rw [shown]
        by_cases none_ : tail.takeWhile CodePoint.isDigit = []
        · simp [none_]
        · simp [none_]
    · refine ⟨[], [], c :: t, rfl, .absent ?_, ?_⟩
      · intro d first
        cases first
        simpa using marks
      · rw [Lexeme.exponent, if_neg marks]
        rfl

private theorem TakesExponent.isExponent (taken : TakesExponent exponent digits after)
    (some_ : exponent ≠ [])
    (full : digits ≠ []) : IsExponent exponent := by
  cases taken with
  | absent => exact absurd rfl some_
  | marked marks signs run =>
    refine ⟨_, _, digits, rfl, marks, ?_, full, run.1⟩
    rcases signs with plus | minus | ⟨none_, _⟩
    · exact .inr (.inl plus)
    · exact .inr (.inr minus)
    · exact .inl none_

/-! What it is worth. -/

theorem not_isMarker_of_isDigitOrPoint (inside : c.isDigitOrPoint) : Decimal.isMarker c = false := by
  by_cases marks : Decimal.isMarker c
  · rw [not_isDigitOrPoint_of_isMarker marks] at inside
    cases inside
  · simpa using marks

theorem isDigitOrPoint_iff : c.isDigitOrPoint ↔ c.isDigit ∨ c = point := by
  simp [CodePoint.isDigitOrPoint, point]

private theorem point_not_isDigit : point.isDigit = false := rfl

private theorem plus_ne_minus : CodePoint.ofChar '+' ≠ CodePoint.ofChar '-' := by decide

/-- Behind the marker of an exponent with digits, the conversion reads an exponent as well. -/
theorem exists_exponent?_of_isExponent (shape : IsExponent exponent) :
    ∃ marker rest n, exponent = marker :: rest ∧ Decimal.isMarker marker ∧ Decimal.exponent? rest = some n := by
  obtain ⟨marker, sign, digits, rfl, marks, signs, full, all⟩ := shape
  obtain ⟨first, others, rfl⟩ := List.exists_cons_of_ne_nil full
  have each : (first :: others).all CodePoint.isDigit := List.all_eq_true.mpr all
  suffices found : ∃ n, Decimal.exponent? (sign ++ (first :: others)) = some n from
    let ⟨n, read⟩ := found
    ⟨marker, _, n, rfl, marks, read⟩
  rcases signs with rfl | rfl | rfl
  · have digit : first.isDigit := all first List.mem_cons_self
    have unsigned : first ≠ '-' ∧ first ≠ '+' := by
      constructor <;> (rintro rfl; cases digit)
    exact ⟨_, by simp only [Decimal.exponent?, List.nil_append, if_neg unsigned.1, if_neg unsigned.2, each]; rfl⟩
  · rw [show Text.of "+" ++ (first :: others) = CodePoint.ofChar '+' :: first :: others from rfl]
    exact ⟨_, by simp only [Decimal.exponent?, if_neg plus_ne_minus, if_true, each]; rfl⟩
  · rw [show Text.of "-" ++ (first :: others) = CodePoint.ofChar '-' :: first :: others from rfl]
    exact ⟨_, by simp only [Decimal.exponent?, if_true, each]; rfl⟩

def aroundPoint (t : Text) : Text :=
  t.takeWhile (fun c => c != point) ++ (t.dropWhile fun c => c != point).drop 1

theorem aroundPoint_point (t : Text) : aroundPoint (point :: t) = t := by
  simp [aroundPoint]

theorem aroundPoint_cons (other : c ≠ point) (t : Text) : aroundPoint (c :: t) = c :: aroundPoint t := by
  have passed : (c != point) = true := by simpa using other
  rw [aroundPoint, aroundPoint, List.takeWhile_cons_of_pos (p := fun c => c != point) passed,
    List.dropWhile_cons_of_pos (p := fun c => c != point) passed, List.cons_append]

private theorem aroundPoint_ne_nil (starts : Scanner.startsNumber body) :
    aroundPoint body ≠ [] := by
  cases body with
  | nil => cases starts
  | cons c rest =>
    by_cases here : c = point
    · subst here
      rw [aroundPoint_point]
      rintro rfl
      cases starts
    · rw [aroundPoint_cons here]
      exact List.cons_ne_nil _ _

theorem count_point_eq_zero_iff (all : ∀ c ∈ body, c.isDigitOrPoint) :
    body.count point = 0 ↔ ∀ c ∈ body, c.isDigit := by
  rw [List.count_eq_zero]
  constructor
  · intro absent c member
    rcases isDigitOrPoint_iff.mp (all c member) with digit | same
    · exact digit
    · exact absurd (same ▸ member) absent
  · intro each member
    have digit : point.isDigit := each point member
    rw [point_not_isDigit] at digit
    cases digit

/-- Digits and points are digits around their first point unless there is a second one. -/
theorem count_point_lt_two_iff (all : ∀ c ∈ body, c.isDigitOrPoint) :
    body.count point < 2 ↔ ∀ c ∈ aroundPoint body, c.isDigit := by
  induction body with
  | nil => simp [aroundPoint]
  | cons c rest hypothesis =>
    obtain ⟨first, others⟩ := List.forall_mem_cons.mp all
    by_cases here : c = point
    · subst here
      rw [aroundPoint_point, ← count_point_eq_zero_iff others, List.count_cons_self]
      omega
    · have digit : c.isDigit := (isDigitOrPoint_iff.mp first).resolve_right here
      rw [aroundPoint_cons here, List.count_cons_of_ne here, List.forall_mem_cons, hypothesis others]
      exact ⟨fun each => ⟨digit, each⟩, fun both => both.2⟩

private theorem count_point_of_isExponent (shape : exponent = [] ∨ IsExponent exponent) :
    exponent.count point = 0 := by
  rw [List.count_eq_zero]
  intro member
  rcases shape with rfl | ⟨marker, sign, digits, rfl, marks, signs, _, each⟩
  · cases member
  · rcases List.mem_cons.mp member with rfl | inner
    · cases marks
    · rcases List.mem_append.mp inner with inSign | inDigits
      · rcases signs with rfl | rfl | rfl <;> revert inSign <;> decide
      · cases each point inDigits

/-- The conversion accepts what is taken as a number unless it has two points. -/
theorem isSome_ofText?_iff (starts : Scanner.startsNumber body) (all : ∀ c ∈ body, c.isDigitOrPoint)
    (shape : exponent = [] ∨ IsExponent exponent) :
    (Double.ofText? (body ++ exponent)).isSome ↔ body.count point < 2 := by
  have inside : ∀ c ∈ body, (!Decimal.isMarker c) = true := fun c member => by
    rw [not_isMarker_of_isDigitOrPoint (all c member)]
    rfl
  have stops : ∀ c ∈ exponent.head?, (!Decimal.isMarker c) = false := by
    rcases shape with rfl | ⟨marker, _, _, rfl, marks, _⟩
    · exact nofun
    · intro c first
      cases first
      simp [marks]
  obtain ⟨front, behind⟩ := span_of_all inside stops
  have some_ := aroundPoint_ne_nil starts
  rw [count_point_lt_two_iff all, Double.ofText?, Option.isSome_map, Decimal.ofText?]
  simp only [front, behind, show CodePoint.ofChar '.' = point from rfl]
  rw [← aroundPoint]
  generalize aroundPoint body = digits at some_
  have full : digits.isEmpty = false := by simpa using some_
  by_cases each : ∀ c ∈ digits, c.isDigit
  · have accepted : digits.all CodePoint.isDigit := List.all_eq_true.mpr each
    simp only [full, accepted]
    refine iff_of_true ?_ each
    rcases shape with rfl | shape
    · simp
    · obtain ⟨marker, rest, n, rfl, _, read⟩ := exists_exponent?_of_isExponent shape
      simp [read]
  · have refused : digits.all CodePoint.isDigit = false := by simpa using each
    simp only [full, refused]
    simp [each]

private theorem ofDecimal_ne_nan (negative : Bool) (coefficient : Nat) (exponent : Int)
    (mark : Nat) :
    Double.ofDecimal negative coefficient exponent ≠ .nan mark := by
  have rank (n : Nat) : Double.ofRank negative n ≠ .nan mark := by
    unfold Double.ofRank
    split <;> nofun
  unfold Double.ofDecimal
  dsimp only
  split
  · exact rank 0
  · split
    · nofun
    · split
      · exact rank 0
      · split
        · exact rank _
        · exact rank _

private theorem ofText?_ne_nan (t : Text) (mark : Nat) : Double.ofText? t ≠ some (.nan mark) := by
  unfold Double.ofText?
  cases Decimal.ofText? t with
  | none => nofun
  | some numeral => exact fun same => ofDecimal_ne_nan _ _ _ mark (Option.some.inj same)

private theorem ofDigits_eq (digits : Text) :
    Numeral.ofDigits digits = Nat.ofDigits 10 (digits.reverse.map CodePoint.digitValue) := by
  induction digits using List.reverseRecOn with
  | nil => rfl
  | append_singleton front last hypothesis =>
    rw [Numeral.ofDigits_concat, hypothesis, List.reverse_append, List.reverse_singleton, List.singleton_append,
      List.map_cons, Nat.ofDigits_cons]
    exact Nat.add_comm _ _

private theorem numberValue_of_overlong (some_ : text ≠ []) (all : ∀ c ∈ text, c.isDigit)
    (long : Numeral.digitLimit < text.length) (mark : Nat) :
    numberValue text mark = .error (.fault (.tooManyDigits text.length)) := by
  have each : text.all CodePoint.isDigit := List.all_eq_true.mpr all
  have full : text.isEmpty = false := by simpa using some_
  simp only [numberValue, full, each]
  exact if_pos long

private theorem exists_numberValue (starts : Scanner.startsNumber body)
    (all : ∀ c ∈ body, c.isDigitOrPoint)
    (shape : exponent = [] ∨ IsExponent exponent)
    (short : (∀ c ∈ body ++ exponent, c.isDigit) → (body ++ exponent).length ≤ Numeral.digitLimit) (mark : Nat) :
    ∃ value, numberValue (body ++ exponent) mark = .ok value ∧ IsValueOf (body ++ exponent) value := by
  have points : (body ++ exponent).count point = body.count point := by
    rw [List.count_append, Nat.add_eq_left]
    exact count_point_of_isExponent shape
  have accepted := isSome_ofText?_iff starts all shape
  have some_ : body ++ exponent ≠ [] := by
    intro none_
    rw [(List.append_eq_nil_iff.mp none_).1] at starts
    cases starts
  generalize body ++ exponent = text at *
  have full : text.isEmpty = false := by simpa using some_
  rw [← points] at accepted
  by_cases digits : ∀ c ∈ text, c.isDigit
  · -- Digits alone.
    have each : text.all CodePoint.isDigit := List.all_eq_true.mpr digits
    have pointless : text.count point = 0 :=
      (count_point_eq_zero_iff fun c member => isDigitOrPoint_of_isDigit (digits c member)).mpr digits
    have value : numberValue text mark = .ok (.int (Numeral.ofDigits text)) := by
      simp only [numberValue, full, each]
      exact if_neg (Nat.not_lt.mpr (short digits))
    refine ⟨_, value, ⟨fun _ => digits, fun _ => ⟨_, rfl⟩⟩, fun _ => ?_, ⟨nofun, fun two => by omega⟩,
      fun other => absurd digits other⟩
    rw [ofDigits_eq]
  · have each : text.all CodePoint.isDigit = false := by simpa using digits
    cases read : Double.ofText? text with
    | some x =>
      have value : numberValue text mark = .ok (.float x) := by
        simp only [numberValue, full, each, read]
        rfl
      have one : text.count point < 2 := accepted.mp (by rw [read]; rfl)
      refine ⟨_, value, ⟨nofun, fun whole => absurd whole digits⟩, fun whole => absurd whole digits, ⟨?_, ?_⟩,
        fun _ _ => ⟨x, read, rfl⟩⟩
      · rintro ⟨other, same⟩
        cases same
        exact absurd read (ofText?_ne_nan text other)
      · intro two
        omega
    | none =>
      have value : numberValue text mark = .ok (.float (.nan mark)) := by
        simp only [numberValue, full, each, read]
        rfl
      have two : ¬ text.count point < 2 := fun one => by
        have found := accepted.mpr one
        rw [read] at found
        cases found
      exact ⟨_, value, ⟨nofun, fun whole => absurd whole digits⟩, fun whole => absurd whole digits,
        ⟨fun _ => Nat.not_lt.mp two, fun _ => ⟨mark, rfl⟩⟩, fun _ one => absurd one two⟩

end Lexeme

open Lexeme

namespace Scanner

variable {s : Scanner} {body exponent digits after : Text}

/-- What a scan makes of the number that comes next. All of it is passed, also where the exponent is refused because it
lacks digits. Else there is a token for it with its value, unless it is a whole number of too many digits. -/
structure ReadsNumber (s : Scanner) (body exponent digits after : Text) : Prop where
  number : NumberAt s.rest body exponent digits after
  passed : s.scan.1.offset = s.offset + (body ++ exponent).length ∧ s.scan.1.rest = after
  refused_iff : (∃ place, s.scan.2 = some (.invalidExponent place)) ↔ LacksDigits exponent digits
  overlong : (∀ c ∈ body ++ exponent, c.isDigit) → Numeral.digitLimit < (body ++ exponent).length →
    s.scan.2 = some (.fault (.tooManyDigits (body ++ exponent).length))
  token : ¬ LacksDigits exponent digits →
    ((∀ c ∈ body ++ exponent, c.isDigit) → (body ++ exponent).length ≤ Numeral.digitLimit) →
    s.scan.2 = none ∧ ∃ value, IsValueOf (body ++ exponent) value ∧
      s.scan.1.tokens = s.tokens ++ [⟨.number, body ++ exponent, value, s.position⟩]

private theorem scan_eq_number (starts : startsNumber s.rest) : s.scan = s.number := by
  unfold scan
  cases front : s.rest with
  | nil =>
    rw [front] at starts
    cases starts
  | cons c rest =>
    rw [front] at starts
    exact if_pos starts

private theorem not_isDigit_of_exponent (taken : TakesExponent exponent digits after)
    (some_ : exponent ≠ []) :
    ¬ ∀ c ∈ body ++ exponent, c.isDigit := by
  intro all
  cases taken with
  | absent => exact some_ rfl
  | marked marks _ _ =>
    have digit := isDigitOrPoint_of_isDigit (all _ (List.mem_append_right body List.mem_cons_self))
    rw [not_isDigitOrPoint_of_isMarker marks] at digit
    cases digit

/-- The number that comes next, and what the scan is where its exponent is in order and where it is not. -/
theorem exists_numberAt (starts : startsNumber s.rest) :
    ∃ body exponent digits after, NumberAt s.rest body exponent digits after ∧ startsNumber body ∧
      s.scan = if LacksDigits exponent digits then
        (s.passing (body ++ exponent), some (.invalidExponent s.position)) else s.numeral (body ++ exponent) := by
  have whole : s.rest = s.rest.takeWhile CodePoint.isDigitOrPoint ++ s.rest.dropWhile CodePoint.isDigitOrPoint :=
    List.takeWhile_append_dropWhile.symm
  have run := isRun_takeWhile CodePoint.isDigitOrPoint s.rest
  have begins := startsNumber_takeWhile starts
  obtain ⟨exponent, digits, after, behind, taken, read⟩ :=
    exists_takesExponent (s.rest.dropWhile CodePoint.isDigitOrPoint)
  have scanned := scan_eq_number starts
  rw [number, read] at scanned
  generalize s.rest.takeWhile CodePoint.isDigitOrPoint = body at *
  rw [behind] at whole run
  refine ⟨body, exponent, digits, after, ⟨by rw [whole, List.append_assoc], run, taken⟩, begins, ?_⟩
  rw [scanned]
  by_cases none_ : exponent = []
  · simp [none_, LacksDigits]
  · by_cases empty : digits = []
    · simp [none_, empty, LacksDigits]
    · simp [none_, empty, LacksDigits]

theorem TakesExponent.cases (taken : TakesExponent exponent digits after) (full : ¬ LacksDigits exponent digits) :
    exponent = [] ∨ IsExponent exponent := by
  by_cases none_ : exponent = []
  · exact .inl none_
  · exact .inr (taken.isExponent none_ fun empty => full ⟨none_, empty⟩)

/-- Wherever a number begins, the scan takes the longest run of digits and points, and where the marker of an exponent
comes next, that marker, at most one sign and the longest run of digits behind them. It refuses the exponent exactly if
there is no such digit, and otherwise gives the number its value. -/
theorem scan_reads_number (s : Scanner) (starts : startsNumber s.rest) :
    ∃ body exponent digits after, s.ReadsNumber body exponent digits after := by
  obtain ⟨body, exponent, digits, after, number, begins, scanned⟩ := exists_numberAt starts
  have left : (s.passing (body ++ exponent)).rest = after := rest_passing number.whole
  refine ⟨body, exponent, digits, after, ?_⟩
  by_cases lacking : LacksDigits exponent digits
  · rw [if_pos lacking] at scanned
    have mixed : ¬ ∀ c ∈ body ++ exponent, c.isDigit := not_isDigit_of_exponent number.taken lacking.1
    exact { number, passed := by rw [scanned]; exact ⟨rfl, left⟩
            refused_iff := by rw [scanned]; exact ⟨fun _ => lacking, fun _ => ⟨_, rfl⟩⟩
            overlong := fun whole => absurd whole mixed
            token := fun full => absurd lacking full }
  · rw [if_neg lacking] at scanned
    have shape := TakesExponent.cases number.taken lacking
    by_cases long : (∀ c ∈ body ++ exponent, c.isDigit) ∧ Numeral.digitLimit < (body ++ exponent).length
    · obtain ⟨whole, many⟩ := long
      have some_ : body ++ exponent ≠ [] := List.ne_nil_of_length_pos (Nat.zero_lt_of_lt many)
      rw [numeral, numberValue_of_overlong some_ whole many] at scanned
      exact { number, passed := by rw [scanned]; exact ⟨rfl, left⟩
              refused_iff := by rw [scanned]; exact ⟨by rintro ⟨_, ⟨⟩⟩, fun lacks => absurd lacks lacking⟩
              overlong := fun _ _ => by rw [scanned]
              token := fun _ short => absurd many (Nat.not_lt.mpr (short whole)) }
    · have short (whole : ∀ c ∈ body ++ exponent, c.isDigit) : (body ++ exponent).length ≤ Numeral.digitLimit :=
        Nat.not_lt.mp fun many => long ⟨whole, many⟩
      obtain ⟨value, converted, valued⟩ := exists_numberValue begins number.run.1 shape short s.offset
      rw [numeral, converted] at scanned
      refine { number, passed := by rw [scanned]; exact ⟨rfl, left⟩, refused_iff := ?_
               overlong := fun whole many => absurd ⟨whole, many⟩ long, token := fun _ _ => ?_ }
      · rw [scanned]
        exact ⟨by rintro ⟨_, ⟨⟩⟩, fun lacks => absurd lacks lacking⟩
      · rw [scanned]
        exact ⟨rfl, value, valued, by rw [tokens_add, tokens_passing]⟩

theorem scan_reads_number_before_name :
    let s := start (Text.of "1.5.e+07em")
    startsNumber s.rest ∧ ∃ body exponent digits after, s.ReadsNumber body exponent digits after :=
  ⟨by decide, scan_reads_number (start (Text.of "1.5.e+07em")) (by decide)⟩

end Scanner

end GuardedExpr

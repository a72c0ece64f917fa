import GuardedExpr.Token.Scanner
import Mathlib.Data.List.TakeWhile

/-!
The shapes of tokens, said without the scanner: what a number, a string and a name look like as a whole. What the
scanner takes from the front of a text has the shape of its kind, and no longer front of the text has it.
-/

namespace GuardedExpr

def CodePoint.isHex (c : CodePoint) : Bool :=
  c.hexValue?.isSome

namespace Lexeme

variable {t rest inside : Text} {quote c : CodePoint}

def IsName (t : Text) : Prop :=
  ∃ c rest, t = c :: rest ∧ c.startsName ∧ ∀ d ∈ rest, d.continuesName

def IsExponent (t : Text) : Prop :=
  ∃ marker sign digits, t = marker :: (sign ++ digits) ∧ Decimal.isMarker marker ∧
    (sign = [] ∨ sign = Text.of "+" ∨ sign = Text.of "-") ∧ digits ≠ [] ∧ ∀ c ∈ digits, c.isDigit

/-- Digits and points that begin with a digit, or with a point and a digit, and an optional exponent. -/
def IsNumber (t : Text) : Prop :=
  ∃ body tail, t = body ++ tail ∧ Scanner.startsNumber body ∧ (∀ c ∈ body, c.isDigitOrPoint) ∧
    (tail = [] ∨ IsExponent tail)

/-- What may stand between quotes: any character but the quote and the backslash, a backslash with any character
but the letter u behind it, and a backslash with that letter and four hexadecimal digits behind it. -/
inductive Inside (quote : CodePoint) : Text → Prop where
  | nil : Inside quote []
  | plain {c : CodePoint} {rest : Text} (unescaped : c ≠ '\\') (open_ : c ≠ quote) (more : Inside quote rest) :
      Inside quote (c :: rest)
  | escaped {c : CodePoint} {rest : Text} (unnumbered : c ≠ 'u') (more : Inside quote rest) :
      Inside quote (CodePoint.ofChar '\\' :: c :: rest)
  | numbered {digits rest : Text} (four : digits.length = 4) (hex : ∀ d ∈ digits, d.isHex)
      (more : Inside quote rest) :
      Inside quote (CodePoint.ofChar '\\' :: CodePoint.ofChar 'u' :: (digits ++ rest))

def IsQuote (c : CodePoint) : Prop :=
  c = '"' ∨ c = '\x27'

def IsString (t : Text) : Prop :=
  ∃ quote inside, IsQuote quote ∧ t = quote :: (inside ++ [quote]) ∧ Inside quote inside

def IsUnterminated (t : Text) : Prop :=
  ∃ quote inside last, IsQuote quote ∧ t = quote :: (inside ++ last) ∧ Inside quote inside ∧
    (last = [] ∨ last = Text.of "\\")

def BeginsWithHex (t : Text) : Prop :=
  (t.take 4).length = 4 ∧ ∀ d ∈ t.take 4, d.isHex

def HasBadEscape (t : Text) : Prop :=
  ∃ quote inside rest, IsQuote quote ∧
    t = quote :: (inside ++ CodePoint.ofChar '\\' :: CodePoint.ofChar 'u' :: rest) ∧ Inside quote inside ∧
    ¬ BeginsWithHex rest

theorem head?_dropWhile {α : Type} {p : α → Bool} {l : List α} : ∀ c ∈ (l.dropWhile p).head?, p c = false := by
  intro c first
  have stopped := List.head?_dropWhile_not p l
  rw [Option.mem_def.mp first] at stopped
  simpa using stopped

theorem span_of_all {α : Type} {p : α → Bool} {front rest : List α} (all : ∀ c ∈ front, p c)
    (stops : ∀ c ∈ rest.head?, p c = false) :
    (front ++ rest).takeWhile p = front ∧ (front ++ rest).dropWhile p = rest := by
  rw [List.takeWhile_append_of_pos all, List.dropWhile_append_of_pos all]
  cases rest with
  | nil => simp
  | cons c rest => simp [stops c rfl]

theorem eq_nil_of_all {α : Type} {p : α → Bool} {front more rest : List α} (all : ∀ c ∈ front ++ more, p c)
    (stops : ∀ c ∈ (more ++ rest).head?, p c = false) : more = [] := by
  cases more with
  | nil => rfl
  | cons c more =>
    have inside : p c := all c (by simp)
    rw [stops c rfl] at inside
    cases inside

/-! Exponents. -/

theorem isDigitOrPoint_of_isDigit (digit : c.isDigit) : c.isDigitOrPoint := by
  simp [CodePoint.isDigitOrPoint, digit]

theorem not_isDigitOrPoint_of_isMarker (marks : Decimal.isMarker c) : c.isDigitOrPoint = false := by
  simp only [Decimal.isMarker, Bool.or_eq_true, decide_eq_true_eq] at marks
  rcases marks with rfl | rfl <;> decide

private theorem sign_eq (t : Text) : sign t = [] ∨ sign t = Text.of "+" ∨ sign t = Text.of "-" := by
  cases t with
  | nil => exact .inl rfl
  | cons c rest =>
    by_cases plus : c = '+'
    · exact .inr (.inl (by rw [plus]; rfl))
    · by_cases minus : c = '-'
      · exact .inr (.inr (by rw [minus]; rfl))
      · exact .inl (by simp [sign, plus, minus])

theorem sign_append_drop (t : Text) : sign t ++ t.drop (sign t).length = t := by
  cases t with
  | nil => rfl
  | cons c rest =>
    simp only [sign]
    split <;> rfl

private theorem sign_of_append {signed digits : Text}
    (signs : signed = [] ∨ signed = Text.of "+" ∨ signed = Text.of "-") (some_ : digits ≠ [])
    (all : ∀ c ∈ digits, c.isDigit) (rest : Text) : sign (signed ++ digits ++ rest) = signed := by
  rcases signs with rfl | rfl | rfl
  · cases digits with
    | nil => exact absurd rfl some_
    | cons c digits =>
      have digit := all c List.mem_cons_self
      have unsigned : ¬ (c = '+' ∨ c = '-') := by
        rintro (rfl | rfl) <;> cases digit
      simp [sign, unsigned]
  · rfl
  · rfl

theorem exponent_of_isExponent {lexeme : Text} (shape : IsExponent lexeme) (rest : Text) :
    exponent (lexeme ++ rest) = .present (lexeme ++ rest.takeWhile CodePoint.isDigit) := by
  obtain ⟨marker, signed, digits, rfl, marks, signs, some_, all⟩ := shape
  have signIs : sign (signed ++ digits ++ rest) = signed := sign_of_append signs some_ all rest
  have taken : (digits ++ rest).takeWhile CodePoint.isDigit = digits ++ rest.takeWhile CodePoint.isDigit :=
    List.takeWhile_append_of_pos all
  rw [List.cons_append, exponent, if_pos marks, signIs]
  simp [taken, some_]

/-- A text without an exponent at its front begins with no marker, or there is no digit behind marker and sign. -/
theorem exponent_of_present {t lexeme : Text} (found : exponent t = .present lexeme) :
    IsExponent lexeme ∧ ∃ rest, t = lexeme ++ rest ∧ ∀ c ∈ rest.head?, c.isDigit = false := by
  cases t with
  | nil => cases found
  | cons c t =>
    rw [exponent] at found
    split at found
    · next marks =>
      dsimp only at found
      split at found
      · cases found
      · next some_ =>
        cases found
        have digits := List.takeWhile_append_dropWhile (p := CodePoint.isDigit) (l := t.drop (sign t).length)
        refine ⟨⟨c, sign t, _, rfl, marks, sign_eq t, by simpa using some_, fun _ => List.mem_takeWhile_imp⟩,
          (t.drop (sign t).length).dropWhile CodePoint.isDigit, ?_, head?_dropWhile⟩
        have whole : t = sign t ++ (t.drop (sign t).length) := (sign_append_drop t).symm
        rw [← digits, ← List.append_assoc] at whole
        exact congrArg (c :: ·) whole
    · cases found

theorem exponent_of_malformed {t consumed : Text} (found : exponent t = .malformed consumed) :
    (∃ c ∈ t.head?, Decimal.isMarker c) ∧ ∃ rest, t = consumed ++ rest := by
  cases t with
  | nil => cases found
  | cons c t =>
    rw [exponent] at found
    split at found
    · next marks =>
      dsimp only at found
      split at found
      · cases found
        exact ⟨⟨c, rfl, marks⟩, _, by rw [List.cons_append, sign_append_drop]⟩
      · cases found
    · cases found

theorem exponent_of_absent {t : Text} (found : exponent t = .absent) : ∀ c ∈ t.head?, Decimal.isMarker c = false := by
  cases t with
  | nil => exact nofun
  | cons c t =>
    rw [exponent] at found
    split at found
    · dsimp only at found
      split at found <;> cases found
    · next unmarked =>
      rintro d ⟨⟩
      simpa using unmarked

theorem exponent_of_unmarked {t : Text} (unmarked : ∀ c ∈ t.head?, Decimal.isMarker c = false) :
    exponent t = .absent := by
  cases t with
  | nil => rfl
  | cons c t => rw [exponent, if_neg (by simpa using unmarked c rfl)]

theorem not_isExponent_of_front {t front rest : Text} (none_ : ∀ lexeme, exponent t ≠ .present lexeme)
    (split : t = front ++ rest) : ¬ IsExponent front := by
  intro shape
  rw [split, exponent_of_isExponent shape rest] at none_
  exact none_ _ rfl

/-! Numbers. -/

/-- A number is its digits and points, and an exponent or nothing behind them. -/
theorem isNumber_append_iff {body tail : Text} (all : ∀ c ∈ body, c.isDigitOrPoint)
    (stops : ∀ c ∈ tail.head?, c.isDigitOrPoint = false) :
    IsNumber (body ++ tail) ↔ Scanner.startsNumber body ∧ (tail = [] ∨ IsExponent tail) := by
  constructor
  · rintro ⟨other, last, same, starts, inside, shape⟩
    have ends : ∀ c ∈ last.head?, c.isDigitOrPoint = false := by
      rcases shape with rfl | ⟨marker, _, _, rfl, marks, _⟩
      · exact nofun
      · rintro c ⟨⟩
        exact not_isDigitOrPoint_of_isMarker marks
    have first := span_of_all all stops
    have second := span_of_all inside ends
    rw [same] at first
    rw [← first.1, ← first.2, second.1, second.2]
    exact ⟨starts, shape⟩
  · rintro ⟨starts, shape⟩
    exact ⟨body, tail, rfl, starts, all, shape⟩

theorem startsNumber_takeWhile (starts : Scanner.startsNumber t) :
    Scanner.startsNumber (t.takeWhile CodePoint.isDigitOrPoint) := by
  cases t with
  | nil => cases starts
  | cons c t =>
    simp only [Scanner.startsNumber, Bool.or_eq_true, Bool.and_eq_true, decide_eq_true_eq] at starts
    rcases starts with digit | ⟨rfl, digit⟩
    · simp [isDigitOrPoint_of_isDigit digit, Scanner.startsNumber, digit]
    · cases t with
      | nil => cases digit
      | cons d t =>
        have point : CodePoint.isDigitOrPoint '.' := rfl
        have second : d.isDigit := digit
        simp [point, isDigitOrPoint_of_isDigit second, Scanner.startsNumber, second]

inductive EndsNumber : Text → Text → Prop where
  | bare {more : Text} (stops : ∀ c ∈ more.head?, c.isDigitOrPoint = false)
      (unmarked : ∀ c ∈ more.head?, Decimal.isMarker c = false) : EndsNumber [] more
  | exponent {tail more : Text} (shape : IsExponent tail) (stops : ∀ c ∈ more.head?, c.isDigit = false) :
      EndsNumber tail more

theorem isNumber_of_absent (starts : Scanner.startsNumber t) :
    IsNumber (t.takeWhile CodePoint.isDigitOrPoint) :=
  ⟨_, [], (List.append_nil _).symm, startsNumber_takeWhile starts, fun _ => List.mem_takeWhile_imp, .inl rfl⟩

theorem isNumber_of_present (starts : Scanner.startsNumber t) {lexeme : Text} (shape : IsExponent lexeme) :
    IsNumber (t.takeWhile CodePoint.isDigitOrPoint ++ lexeme) :=
  ⟨_, lexeme, rfl, startsNumber_takeWhile starts, fun _ => List.mem_takeWhile_imp, .inr shape⟩

/-- A number is not continued by what is neither digit nor point nor the beginning of an exponent. -/
theorem longest_of_absent {body tail more : Text} (all : ∀ c ∈ body, c.isDigitOrPoint)
    (stops : ∀ c ∈ (more ++ tail).head?, c.isDigitOrPoint = false)
    (unmarked : ∀ c ∈ (more ++ tail).head?, Decimal.isMarker c = false) (shape : IsNumber (body ++ more)) :
    more = [] := by
  cases more with
  | nil => rfl
  | cons c more =>
    have stop : ∀ d ∈ (c :: more).head?, d.isDigitOrPoint = false := fun d first => stops d first
    rcases ((isNumber_append_iff all stop).mp shape).2 with none_ | ⟨marker, _, _, same, marks, _⟩
    · exact none_
    · cases same
      rw [unmarked c rfl] at marks
      cases marks

theorem longest_of_present {body lexeme more tail : Text} (all : ∀ c ∈ body, c.isDigitOrPoint)
    (shape : IsExponent lexeme) (stops : ∀ c ∈ (more ++ tail).head?, c.isDigit = false)
    (longer : IsNumber (body ++ lexeme ++ more)) : more = [] := by
  have whole := exponent_of_isExponent shape more
  have ends : ∀ c ∈ (lexeme ++ more).head?, c.isDigitOrPoint = false := by
    obtain ⟨marker, _, _, rfl, marks, _⟩ := shape
    rintro c ⟨⟩
    exact not_isDigitOrPoint_of_isMarker marks
  rw [List.append_assoc, isNumber_append_iff all ends] at longer
  rcases longer.2 with none_ | exponent
  · exact (List.append_eq_nil_iff.mp none_).2
  · -- Read as an exponent, the longer text is taken as a whole, so all that is added are digits.
    have again := exponent_of_isExponent exponent []
    rw [List.append_nil, whole] at again
    have digits : more.takeWhile CodePoint.isDigit = more := by simpa using again
    have all : ∀ c ∈ [] ++ more, c.isDigit := by
      intro c member
      rw [List.nil_append, ← digits] at member
      exact List.mem_takeWhile_imp member
    exact eq_nil_of_all all stops

/-! Names. -/

theorem isName_takeWhile (starts : c.startsName) :
    IsName ((c :: rest).takeWhile CodePoint.continuesName) := by
  have first : c.continuesName := by simp [CodePoint.continuesName, starts]
  rw [List.takeWhile_cons_of_pos first]
  exact ⟨c, _, rfl, starts, fun _ => List.mem_takeWhile_imp⟩

theorem continuesName_of_isName (shape : IsName t) : ∀ c ∈ t, c.continuesName := by
  obtain ⟨c, rest, rfl, starts, all⟩ := shape
  intro d member
  rcases List.mem_cons.mp member with rfl | inner
  · simp [CodePoint.continuesName, starts]
  · exact all d inner

/-! Strings. -/

private theorem isSome_ofHex? (digits : Text) (start : Option Nat) :
    (digits.foldl (fun n c => do return 16 * (← n) + (← c.hexValue?)) start).isSome =
      (start.isSome && digits.all CodePoint.isHex) := by
  induction digits generalizing start with
  | nil => simp
  | cons c digits hypothesis =>
    rw [List.foldl_cons, hypothesis, List.all_cons, CodePoint.isHex, ← Bool.and_assoc]
    cases start <;> cases c.hexValue? <;> rfl

theorem isSome_numbered? (digits : Text) : (numbered? digits).isSome = digits.all CodePoint.isHex := by
  rw [numbered?, Option.isSome_map, Numeral.ofHex?, isSome_ofHex?]
  rfl

/-- How a text behind an opening quote begins: with what ends at the next quote, or with what lacks one, or with
what stands before an escape that lacks digits. -/
def Body.Fits (quote : CodePoint) (t : Text) : Body → Prop
  | .closed lexeme _ => ∃ inside rest, Inside quote inside ∧ lexeme = inside ++ [quote] ∧ t = lexeme ++ rest
  | .unterminated => ∃ inside last, Inside quote inside ∧ t = inside ++ last ∧ (last = [] ∨ last = Text.of "\\")
  | .badEscape before => Inside quote before ∧ ∃ rest,
      t = before ++ CodePoint.ofChar '\\' :: CodePoint.ofChar 'u' :: rest ∧ ¬ BeginsWithHex rest

theorem Body.Fits.after {front value : Text} {read : Body} (fits : read.Fits quote rest)
    (extends_ : ∀ inside, Inside quote inside → Inside quote (front ++ inside)) :
    (read.after front value).Fits quote (front ++ rest) := by
  cases read with
  | closed lexeme value =>
    obtain ⟨inside, more, shape, rfl, rfl⟩ := fits
    exact ⟨front ++ inside, more, extends_ inside shape, (List.append_assoc _ _ _).symm,
      (List.append_assoc _ _ _).symm⟩
  | unterminated =>
    obtain ⟨inside, last, shape, rfl, ends⟩ := fits
    exact ⟨front ++ inside, last, extends_ inside shape, (List.append_assoc _ _ _).symm, ends⟩
  | badEscape before =>
    obtain ⟨shape, more, rfl, bad⟩ := fits
    exact ⟨extends_ before shape, more, (List.append_assoc _ _ _).symm, bad⟩

theorem fits_body (quote : CodePoint) (t : Text) : (body quote t).Fits quote t := by
  fun_induction body quote t with
  | case1 => exact ⟨[], [], .nil, rfl, .inl rfl⟩
  | case2 => exact ⟨[], _, .nil, rfl, .inr rfl⟩
  | case3 d₁ d₂ d₃ d₄ rest point found hypothesis =>
    have hex : [d₁, d₂, d₃, d₄].all CodePoint.isHex := by
      rw [← isSome_numbered?, found]
      rfl
    have four : [d₁, d₂, d₃, d₄].length = 4 := rfl
    exact hypothesis.after fun inside shape => .numbered four (List.all_eq_true.mp hex) shape
  | case4 d₁ d₂ d₃ d₄ rest missing =>
    refine ⟨.nil, _, rfl, fun hex => ?_⟩
    have all : [d₁, d₂, d₃, d₄].all CodePoint.isHex := List.all_eq_true.mpr hex.2
    rw [← isSome_numbered?, missing] at all
    cases all
  | case5 rest short =>
    refine ⟨.nil, _, rfl, fun hex => ?_⟩
    match rest with
    | [] | [_] | [_, _] | [_, _, _] => cases hex.1
    | d₁ :: d₂ :: d₃ :: d₄ :: rest => exact short d₁ d₂ d₃ d₄ rest rfl
  | case6 escaped rest unnumbered hypothesis =>
    exact hypothesis.after fun inside shape => .escaped unnumbered shape
  | case7 rest unescaped => exact ⟨[], rest, .nil, rfl, rfl⟩
  | case8 c rest unescaped open_ hypothesis =>
    exact hypothesis.after fun inside shape => .plain unescaped open_ shape

theorem body_quote (plain : quote ≠ '\\') (rest : Text) : body quote (quote :: rest) = .closed [quote] [] := by
  rw [body.eq_def]
  simp only [if_neg plain, if_pos]

theorem body_plain (unescaped : c ≠ '\\') (open_ : c ≠ quote) (rest : Text) :
    body quote (c :: rest) = (body quote rest).after [c] [c] := by
  rw [body.eq_def]
  simp only [if_neg unescaped, if_neg open_]

theorem body_escaped (unnumbered : c ≠ 'u') (rest : Text) :
    body quote (CodePoint.ofChar '\\' :: c :: rest) =
      (body quote rest).after [CodePoint.ofChar '\\', c] [Lexeme.unescaped c] := by
  rw [body.eq_def]
  simp only [if_neg unnumbered, if_pos]

theorem exists_body_of_inside (shape : Inside quote inside) (quotes : IsQuote quote) (rest : Text) :
    ∃ value, body quote (inside ++ quote :: rest) = .closed (inside ++ [quote]) value := by
  have plainQuote : quote ≠ '\\' := by
    rcases quotes with rfl | rfl <;> decide
  induction shape with
  | nil => exact ⟨[], body_quote plainQuote rest⟩
  | plain unescaped open_ _ hypothesis =>
    obtain ⟨value, read⟩ := hypothesis
    exact ⟨_, by rw [List.cons_append, body_plain unescaped open_, read]; rfl⟩
  | escaped unnumbered _ hypothesis =>
    obtain ⟨value, read⟩ := hypothesis
    exact ⟨_, by rw [List.cons_append, List.cons_append, body_escaped unnumbered, read]; rfl⟩
  | @numbered digits more four hex _ hypothesis =>
    obtain ⟨value, read⟩ := hypothesis
    match digits, four with
    | [d₁, d₂, d₃, d₄], _ =>
      obtain ⟨point, found⟩ : ∃ point, numbered? [d₁, d₂, d₃, d₄] = some point :=
        Option.isSome_iff_exists.mp (by rw [isSome_numbered?]; exact List.all_eq_true.mpr hex)
      exact ⟨_, by simp only [List.cons_append, List.nil_append, body, if_pos, found, read]; rfl⟩

theorem longest_string {more : Text} (shape : IsString t) (longer : IsString (t ++ more)) : more = [] := by
  obtain ⟨quote, inside, quotes, rfl, within_⟩ := shape
  obtain ⟨other, further, otherQuotes, same, also⟩ := longer
  rw [List.cons_append, List.append_assoc] at same
  obtain ⟨rfl, whole⟩ := List.cons.inj same
  -- Both are read from the same text, up to the same quote.
  have sooner : ∃ value, body quote (inside ++ quote :: more) = .closed (inside ++ [quote]) value :=
    exists_body_of_inside within_ quotes more
  have later : ∃ value, body quote (further ++ [quote]) = .closed (further ++ [quote]) value :=
    exists_body_of_inside also quotes []
  obtain ⟨_, sooner⟩ := sooner
  obtain ⟨_, later⟩ := later
  have texts : inside ++ quote :: more = further ++ [quote] := whole
  rw [texts, later] at sooner
  have ends : further ++ [quote] = inside ++ [quote] := (Body.closed.inj sooner).1
  rw [ends, ← List.singleton_append, ← List.append_assoc] at texts
  exact List.append_right_eq_self.mp texts

end Lexeme

end GuardedExpr

import GuardedExpr.Proofs.Token.RespacedSource
import GuardedExpr.Proofs.Token.ScannerPositions

/-!
The front of a source. As far as a course of steps gets, it is the course of any front of the source that holds all it
has read. So the text before the place that a failure is reported at can be scanned by itself, to its end.
-/

namespace GuardedExpr

open Lexeme

/-- Where a token begins stand digits alone, more than a whole number may have, and nothing behind them makes them part
of another number. -/
def Text.HasLongNumeral (source : Text) : Prop :=
  ∃ tokens digits rest, Divided source tokens (digits ++ rest) ∧ Numeral.digitLimit < digits.length ∧
    (∀ c ∈ digits, c.isDigit) ∧ ∀ c ∈ rest.head?, c.isDigitOrPoint = false ∧ Decimal.isMarker c = false

private theorem Divided.length_le {source left : Text} {tokens : List Token}
    (divided : Divided source tokens left) :
    left.length ≤ source.length := by
  induction divided with
  | done => exact Nat.le_refl _
  | blank _ _ hypothesis => exact hypothesis.trans (Nat.le_succ _)
  | token _ _ _ _ hypothesis =>
    rw [List.length_append]
    omega

/-- A source no longer than a whole number may be has none that is too long. -/
theorem Text.not_hasLongNumeral {source : Text} (short : source.length ≤ Numeral.digitLimit) :
    ¬ source.HasLongNumeral := by
  rintro ⟨_, digits, _, divided, long, _⟩
  have whole := divided.length_le
  rw [List.length_append] at whole
  omega

theorem head?_take {α : Type} {p : α → Prop} {l : List α} (all : ∀ c ∈ l.head?, p c) (count : Nat) :
    ∀ c ∈ (l.take count).head?, p c := by
  intro c first
  rw [List.head?_take] at first
  split at first
  · cases first
  · exact all c first

theorem Lexeme.EndsNumber.take {tail more : Text} (ends : EndsNumber tail more) (count : Nat) :
    EndsNumber tail (more.take count) := by
  cases ends with
  | bare stops unmarked => exact .bare (head?_take stops count) (head?_take unmarked count)
  | exponent shape stops => exact .exponent shape (head?_take stops count)

namespace Scanner

variable {s next last after : Scanner} {lexeme more : Text} {c quote : CodePoint} {reached : Nat} {failure : Error}

/-! What a step meets. -/

inductive Meets (s : Scanner) : Prop where
  | number (starts : startsNumber s.rest)
  | string {quote : CodePoint} {behind : Text} (quotes : IsQuote quote) (front : s.rest = quote :: behind)
  | mark {kind : TokenKind} {c : CodePoint} {more : Text} (mark : kind.mark? = some c)
      (starts : startsNumber (c :: more) = false) (front : s.rest = c :: more)
  | name {lexeme more : Text} (shape : IsName lexeme) (stops : ∀ c ∈ more.head?, c.continuesName = false)
      (front : s.rest = lexeme ++ more)
  | blank {c : CodePoint} {more : Text} (separates : c.separatesTokens) (front : s.rest = c :: more)
  | nothing {c : CodePoint} (stays : s.scan = (s, some (.unexpectedCharacter c s.position)))

theorem meets (some_ : s.rest ≠ []) : s.Meets := by
  obtain ⟨c, more, front⟩ := List.exists_cons_of_ne_nil some_
  by_cases starts : startsNumber s.rest
  · exact .number starts
  have noNumber : startsNumber (c :: more) = false := by simpa [front] using starts
  by_cases quotes : IsQuote c
  · exact .string quotes front
  cases mark : TokenKind.ofMark? c with
  | some kind => exact .mark (TokenKind.ofMark?_eq_some_iff.mp mark) noNumber front
  | none =>
    by_cases named : c.startsName
    · have whole : s.rest = s.rest.takeWhile CodePoint.continuesName ++ s.rest.dropWhile CodePoint.continuesName :=
        List.takeWhile_append_dropWhile.symm
      exact .name (by rw [front]; exact isName_takeWhile named) head?_dropWhile whole
    by_cases separates : c.separatesTokens
    · exact .blank separates front
    · simp only [IsQuote, not_or] at quotes
      refine .nothing (c := c) ?_
      rw [scan, front]
      simp [noNumber, quotes, mark, named, separates]

theorem number_cases (starts : startsNumber s.rest) :
    (∃ body tail more, s.rest = body ++ (tail ++ more) ∧ startsNumber body ∧ (∀ c ∈ body, c.isDigitOrPoint) ∧
      EndsNumber tail more ∧ s.number = s.numeral (body ++ tail)) ∨
    s.number.2 = some (.invalidExponent s.position) := by
  have whole : s.rest = s.rest.takeWhile CodePoint.isDigitOrPoint ++ s.rest.dropWhile CodePoint.isDigitOrPoint :=
    List.takeWhile_append_dropWhile.symm
  have first := startsNumber_takeWhile starts
  have all : ∀ c ∈ s.rest.takeWhile CodePoint.isDigitOrPoint, c.isDigitOrPoint := fun _ => List.mem_takeWhile_imp
  rw [number]
  split
  · next absent =>
    refine .inl ⟨_, [], _, whole, first, all, .bare head?_dropWhile (exponent_of_absent absent), ?_⟩
    rw [List.append_nil]
  · next lexeme present =>
    obtain ⟨shape, behind, same, stops⟩ := exponent_of_present present
    rw [same] at whole
    exact .inl ⟨_, lexeme, behind, whole, first, all, .exponent shape stops, rfl⟩
  · exact .inr rfl

private theorem numberValue_eq_error {mark : Nat}
    (failed : numberValue lexeme mark = .error failure) :
    (∀ c ∈ lexeme, c.isDigit) ∧ Numeral.digitLimit < lexeme.length := by
  rw [numberValue] at failed
  split at failed
  · next digits =>
    split at failed
    · next long =>
      simp only [Bool.and_eq_true, List.all_eq_true] at digits
      exact ⟨digits.2, long⟩
    · cases failed
  · split at failed <;> cases failed

private theorem exists_digits_of_fault {defect : Fault} (some_ : s.rest ≠ [])
    (fails : s.scan.2 = some (.fault defect)) :
    ∃ digits more, s.rest = digits ++ more ∧ Numeral.digitLimit < digits.length ∧ (∀ c ∈ digits, c.isDigit) ∧
      ∀ c ∈ more.head?, c.isDigitOrPoint = false ∧ Decimal.isMarker c = false := by
  cases meets some_ with
  | number starts =>
    rw [scan_of_startsNumber starts] at fails
    rcases number_cases starts with ⟨body, tail, more, front, _, _, ends, read⟩ | malformed
    · rw [read, numeral] at fails
      split at fails
      · cases fails
      · next failure failed =>
        obtain ⟨digits, long⟩ := numberValue_eq_error failed
        cases ends with
        | bare stops unmarked =>
          rw [List.append_nil] at digits long
          exact ⟨body, more, front, long, digits, fun c first => ⟨stops c first, unmarked c first⟩⟩
        | exponent shape =>
          obtain ⟨marker, _, _, rfl, marks, _⟩ := shape
          have digit := isDigitOrPoint_of_isDigit (digits marker (by simp))
          rw [not_isDigitOrPoint_of_isMarker marks] at digit
          cases digit
    · rw [malformed] at fails
      cases fails
  | string quotes front =>
    rw [scan_of_quote quotes front, string] at fails
    split at fails
    · cases fails
    · split at fails <;> cases fails
  | mark mark starts front =>
    rw [scan_of_mark mark starts front] at fails
    cases fails
  | name shape stops front =>
    rw [scan_of_name shape stops front] at fails
    cases fails
  | blank separates front =>
    rw [scan_blank front separates] at fails
    cases fails
  | nothing stays =>
    rw [stays] at fails
    cases fails

/-! The scanner of a front. -/

def cut (s : Scanner) (reached : Nat) : Scanner :=
  { s with source := s.source.take reached }

private theorem foldl_step_cut (s : Scanner) (lexeme : Text) (reached : Nat) :
    lexeme.foldl step (s.cut reached) = (lexeme.foldl step s).cut reached := by
  induction lexeme generalizing s with
  | nil => rfl
  | cons c rest hypothesis =>
    have moved : (s.cut reached).step c = (s.step c).cut reached := by
      unfold step
      split <;> rfl
    rw [List.foldl_cons, moved, hypothesis, List.foldl_cons]

theorem passing_cut (s : Scanner) (lexeme : Text) (reached : Nat) :
    (s.cut reached).passing lexeme = (s.passing lexeme).cut reached := by
  rw [passing, foldl_step_cut]
  rfl

/-- What is read from the front of what is left is there as long as the cut is behind it. -/
theorem rest_cut (lexeme : Text) (front : s.rest = lexeme ++ more) (within : (s.passing lexeme).offset ≤ reached) :
    (s.cut reached).rest = lexeme ++ more.take (reached - (s.passing lexeme).offset) := by
  have taken : (s.cut reached).rest = s.rest.take (reached - s.offset) := List.drop_take
  rw [offset_passing] at within ⊢
  rw [taken, front, List.take_append, List.take_of_length_le (by omega), Nat.sub_sub]

theorem cut_of_length_le (all : s.source.length ≤ reached) : s.cut reached = s := by
  rw [cut, List.take_of_length_le all]

private theorem startsNumber_take (starts : startsNumber (c :: more) = false) (count : Nat) :
    startsNumber (c :: more.take count) = false := by
  simp only [startsNumber, List.head?_take] at starts ⊢
  split
  · simp_all
  · exact starts

private theorem numeral_cut (reached : Nat) (scanned : s.numeral lexeme = (next, none)) :
    next.offset = (s.passing lexeme).offset ∧ (s.cut reached).numeral lexeme = (next.cut reached, none) := by
  rw [numeral] at scanned
  split at scanned
  · next value read =>
    cases scanned
    have again : numberValue lexeme (s.cut reached).offset = .ok value := read
    rw [numeral, again, passing_cut]
    exact ⟨rfl, rfl⟩
  · cases scanned

theorem Moves.offset_lt (moves : s.Moves next) : s.offset < next.offset := by
  have shorter := moves.length_lt
  have scans := scans_scan moves.1
  rw [moves.2] at scans
  cases scans with
  | skipped lexeme front =>
    rw [rest_passing front, front, List.length_append] at shorter
    rw [offset_passing]
    omega
  | made token front =>
    have behind : ((s.passing token.text).add token).rest = _ := rest_passing front
    rw [behind, front, List.length_append] at shorter
    change s.offset < s.offset + token.text.length
    omega

/-- A step is made in a front of the source too that holds what the step reads. -/
theorem Moves.cut (moves : s.Moves next) (within : next.offset ≤ reached) :
    (s.cut reached).Moves (next.cut reached) := by
  have further := moves.offset_lt
  obtain ⟨some_, scanned⟩ := moves
  have someCut : (s.cut reached).rest ≠ [] := by
    obtain ⟨c, more, front⟩ := List.exists_cons_of_ne_nil some_
    rw [rest_cut [c] front (by rw [offset_passing]; exact Nat.le_trans further within)]
    exact List.cons_ne_nil _ _
  refine ⟨someCut, ?_⟩
  cases meets some_ with
  | number starts =>
    rw [scan_of_startsNumber starts] at scanned
    rcases number_cases starts with ⟨body, tail, more, front, first, all, ends, read⟩ | malformed
    · rw [read] at scanned
      obtain ⟨reaches, again⟩ := numeral_cut reached scanned
      have frontCut := rest_cut (s := s) (body ++ tail) (by rw [front, List.append_assoc]) (reaches ▸ within)
      rw [List.append_assoc] at frontCut
      rw [scan_of_number first all (ends.take _) frontCut, again]
    · rw [scanned] at malformed
      cases malformed
  | @string quote behind quotes front =>
    rw [scan_of_quote quotes front] at scanned
    cases Piece.ending quote behind with
    | closed pieces rest =>
      have whole : s.rest = Piece.literal pieces ++ rest := by simp [front, Piece.literal]
      rw [string_closed quotes pieces whole] at scanned
      cases scanned
      rw [scan_of_literal quotes pieces (rest_cut _ whole within), passing_cut]
      rfl
    | unterminated pieces ends =>
      rw [string_unterminated pieces ends front] at scanned
      cases scanned
      have all : (s.passing s.rest).source.length ≤ reached := by
        rw [offset_passing, rest, List.length_drop] at within
        rw [source_passing]
        omega
      rw [cut_of_length_le all, cut_of_length_le (source_passing s s.rest ▸ all), scan_of_quote quotes front,
        string_unterminated pieces ends front]
    | badEscape pieces lacks =>
      rw [string_badEscape pieces lacks front] at scanned
      cases scanned
  | @mark kind c more mark starts front =>
    rw [scan_of_mark mark starts front] at scanned
    cases scanned
    rw [scan_of_mark mark (startsNumber_take starts _) (rest_cut [c] front within), passing_cut]
    rfl
  | name shape stops front =>
    rw [scan_of_name shape stops front] at scanned
    cases scanned
    rw [scan_of_name shape (head?_take stops _) (rest_cut _ front within), passing_cut]
    rfl
  | @blank c more separates front =>
    rw [scan_blank front separates] at scanned
    cases scanned
    rw [scan_blank (rest_cut [c] front within) separates, passing_cut]
  | nothing stays =>
    rw [stays] at scanned
    cases scanned

/-- A course of steps is one in any front of the source too that holds what has been read. -/
theorem Runs.cut (runs : s.Runs last) (within : last.offset ≤ reached) : (s.cut reached).Runs (last.cut reached) := by
  induction runs with
  | refl => exact .refl
  | tail _ moves hypothesis =>
    exact (hypothesis (Nat.le_trans moves.offset_lt.le within)).tail (moves.cut within)

private theorem rest_cut_offset (s : Scanner) : (s.cut s.offset).rest = [] := by
  have taken : (s.cut s.offset).rest = s.rest.take (s.offset - s.offset) := List.drop_take
  rw [taken, Nat.sub_self, List.take_zero]

end Scanner

section

variable {source : Text} {failure : Error}

open Scanner

/-- The front of a source up to a place that is reached is scanned to its end. -/
theorem exists_tokens_of_runs {last : Scanner} (runs : (start source).Runs last) :
    ∃ tokens, tokenize (source.take last.offset) = .ok tokens :=
  ⟨_, tokenize_of_runs (runs.cut (Nat.le_refl _)) last.rest_cut_offset⟩

/-- A string that is cut inside has no end, and is read up to the cut. -/
theorem exists_tokens_of_string {last : Scanner} {quote : CodePoint} {pieces : List (Piece quote)} {more : Text}
    (runs : (start source).Runs last) (quotes : IsQuote quote)
    (front : last.rest = quote :: Piece.spellings pieces ++ more) :
    ∃ tokens, tokenize (source.take (last.passing (quote :: Piece.spellings pieces)).offset) = .ok tokens := by
  set reached := (last.passing (quote :: Piece.spellings pieces)).offset with place
  have within : last.offset ≤ reached := Nat.le_add_right _ _
  have left : (last.cut reached).rest = quote :: (Piece.spellings pieces ++ []) := by
    rw [rest_cut _ front (Nat.le_refl _), ← place, Nat.sub_self]
    simp
  have moves : (last.cut reached).Moves ((last.cut reached).passing (last.cut reached).rest) :=
    ⟨by rw [left]; exact List.cons_ne_nil _ _,
      (scan_of_quote quotes left).trans (string_unterminated pieces (.inl rfl) left)⟩
  exact ⟨_, tokenize_of_runs ((runs.cut within).tail moves) (rest_passing (List.append_nil _).symm)⟩

theorem exists_clean_of_error (failed : tokenize source = .error failure) (short : ¬ Text.HasLongNumeral source) :
    ∃ clean < source.length, failure.position? = some (.behind (source.take clean)) ∧
      ∃ tokens, tokenize (source.take clean) = .ok tokens := by
  obtain ⟨last, after, runs, some_, fails, _⟩ := exists_runs_of_error failed
  have keeps := runs.keeps (keeps_start source)
  obtain ⟨_, offends, stands⟩ := standsAt_of_fails keeps some_ fails
  cases failure with
  | unexpectedCharacter c position =>
    obtain ⟨_, rfl⟩ := stands
    exact ⟨_, keeps.offset_lt some_, rfl, exists_tokens_of_runs runs⟩
  | invalidExponent position =>
    obtain rfl : position = _ := stands
    exact ⟨_, keeps.offset_lt some_, rfl, exists_tokens_of_runs runs⟩
  | invalidEscape position =>
    obtain ⟨quote, quotes, pieces, rest, front, _, rfl⟩ := stands
    have behind : (last.passing (quote :: Piece.spellings pieces)).rest ≠ [] := by
      rw [rest_passing front]
      exact List.cons_ne_nil _ _
    exact ⟨_, (keeps.passing front).offset_lt behind, by rw [keeps.take_passing front]; rfl,
      exists_tokens_of_string runs quotes front⟩
  | fault defect =>
    obtain ⟨tokens, _, divided⟩ := runs.divided some_
    obtain ⟨digits, more, front, long, digit, stops⟩ := exists_digits_of_fault some_ (congrArg Prod.snd fails)
    rw [front] at divided
    exact absurd ⟨tokens, digits, more, divided, long, digit, stops⟩ short
  | _ => exact offends.elim

end

end GuardedExpr

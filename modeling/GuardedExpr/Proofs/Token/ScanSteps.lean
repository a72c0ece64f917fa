import GuardedExpr.Proofs.Token.StringPieces
import GuardedExpr.Proofs.Token.TokenPlaces
import Mathlib.Logic.Relation

/-!
The steps of a scan. A step reads what is at the front of what is left, and the place and the value of the token that
it makes are told by the scanner that makes it. All tokens of a source are made on one course of such steps.
-/

namespace GuardedExpr

open Lexeme

/-- What a token of a kind stands for when it has a text. A number that is none has a value under some mark, and only
numbers and strings have values. -/
def TokenKind.Means (kind : TokenKind) (text : Text) (value : Value) : Prop :=
  match kind with
  | .number => ∃ mark, numberValue text mark = .ok value
  | .string => ∃ quote, IsQuote quote ∧ ∃ pieces : List (Piece quote), text = Piece.literal pieces ∧
      value = .text (Piece.meanings pieces)
  | _ => value = .null

namespace Scanner

variable {s next last : Scanner} {quote c : CodePoint} {more rest : Text} {token : Token} {failure : Error}

def Blames (s : Scanner) : Error → Prop
  | .unexpectedCharacter _ position => position = s.position
  | .invalidExponent position => position = s.position
  | .invalidEscape position => ∃ quote, IsQuote quote ∧ ∃ (pieces : List (Piece quote)) (rest : Text),
      s.rest = quote :: (Piece.spellings pieces ++ CodePoint.ofChar '\\' :: CodePoint.ofChar 'u' :: rest) ∧
      ¬ BeginsWithHex rest ∧ position = (s.passing (quote :: Piece.spellings pieces)).position
  | .fault (.tooManyDigits _) => True
  | _ => False

/-- Where a step gets to: behind what it has read from the front, with a token that begins where it began if it has
made one. -/
inductive Scans (s : Scanner) : Result → Prop where
  | skipped (lexeme : Text) {more : Text} (front : s.rest = lexeme ++ more) : Scans s (s.passing lexeme, none)
  | made (token : Token) {more : Text} (front : s.rest = token.text ++ more) (begins : token.position = s.position)
      (means : token.kind.Means token.text token.value) : Scans s ((s.passing token.text).add token, none)
  | failed (lexeme : Text) {more : Text} {failure : Error} (front : s.rest = lexeme ++ more) (blames : s.Blames failure) :
      Scans s (s.passing lexeme, some failure)

theorem scans_numeral {lexeme : Text} (front : s.rest = lexeme ++ more) : s.Scans (s.numeral lexeme) := by
  rw [numeral]
  split
  · next value read => exact .made ⟨.number, lexeme, value, s.position⟩ front rfl ⟨s.offset, read⟩
  · next failure failed =>
    refine .failed lexeme front ?_
    unfold numberValue at failed
    split at failed
    · split at failed <;> cases failed
      trivial
    · split at failed <;> cases failed

theorem scans_number : s.Scans s.number := by
  have whole : s.rest = s.rest.takeWhile CodePoint.isDigitOrPoint ++ s.rest.dropWhile CodePoint.isDigitOrPoint :=
    List.takeWhile_append_dropWhile.symm
  rw [number]
  split
  · exact scans_numeral whole
  · next lexeme present =>
    obtain ⟨_, behind, same, _⟩ := exponent_of_present present
    rw [same, ← List.append_assoc] at whole
    exact scans_numeral whole
  · next consumed malformed =>
    obtain ⟨_, behind, same⟩ := exponent_of_malformed malformed
    rw [same, ← List.append_assoc] at whole
    exact .failed _ whole rfl

/-! Strings. -/

theorem string_closed (quotes : IsQuote quote) (pieces : List (Piece quote))
    (front : s.rest = Piece.literal pieces ++ rest) :
    s.string = ((s.passing (Piece.literal pieces)).add
      ⟨.string, Piece.literal pieces, .text (Piece.meanings pieces), s.position⟩, none) := by
  have behind : s.rest = quote :: (Piece.spellings pieces ++ quote :: rest) := by
    rw [front, Piece.literal, List.cons_append, List.append_assoc, List.singleton_append]
  rw [string, behind]
  dsimp only
  rw [Piece.body_closed quotes]
  rfl

/-- Without a closing quote all that is left is read, and no token is made. -/
theorem string_unterminated (pieces : List (Piece quote)) {last : Text} (ends : last = [] ∨ last = Text.of "\\")
    (front : s.rest = quote :: (Piece.spellings pieces ++ last)) : s.string = (s.passing s.rest, none) := by
  rw [string, front]
  dsimp only
  rw [Piece.body_unterminated pieces ends]

theorem string_badEscape (pieces : List (Piece quote)) (lacks : ¬ BeginsWithHex rest)
    (front : s.rest = quote :: (Piece.spellings pieces ++ CodePoint.ofChar '\\' :: CodePoint.ofChar 'u' :: rest)) :
    s.string = ((s.passing (quote :: Piece.spellings pieces)).passing [CodePoint.ofChar '\\'],
      some (.invalidEscape (s.passing (quote :: Piece.spellings pieces)).position)) := by
  rw [string, front]
  dsimp only
  rw [Piece.body_badEscape pieces lacks]

private theorem foldl_step_offset (s : Scanner) (lexeme : Text) (offset : Nat) :
    lexeme.foldl step { s with offset := offset } = { lexeme.foldl step s with offset := offset } := by
  induction lexeme generalizing s with
  | nil => rfl
  | cons c rest hypothesis =>
    have moved : ({ s with offset := offset } : Scanner).step c = { s.step c with offset := offset } := by
      unfold step
      split <;> rfl
    rw [List.foldl_cons, moved, hypothesis, List.foldl_cons]

private theorem passing_passing (s : Scanner) (lexeme more : Text) :
    (s.passing lexeme).passing more = s.passing (lexeme ++ more) := by
  rw [passing, passing, foldl_step_offset, passing, List.foldl_append, List.length_append, Nat.add_assoc]

private theorem scans_string {behind : Text} (quotes : IsQuote quote)
    (front : s.rest = quote :: behind) : s.Scans s.string := by
  cases Piece.ending quote behind with
  | closed pieces rest =>
    have whole : s.rest = Piece.literal pieces ++ rest := by
      rw [front, Piece.literal, List.cons_append, List.append_assoc, List.singleton_append]
    rw [string_closed quotes pieces whole]
    exact .made ⟨.string, _, _, s.position⟩ whole rfl ⟨quote, quotes, pieces, rfl, rfl⟩
  | unterminated pieces ends =>
    rw [string_unterminated pieces ends front]
    exact .skipped _ (List.append_nil _).symm
  | @badEscape pieces rest lacks =>
    have whole : s.rest = quote :: Piece.spellings pieces ++ [CodePoint.ofChar '\\'] ++ CodePoint.ofChar 'u' :: rest := by
      rw [front, List.append_assoc]
      rfl
    rw [string_badEscape pieces lacks front, passing_passing]
    exact .failed _ whole ⟨quote, quotes, pieces, rest, front, lacks, rfl⟩

theorem scan_of_quote {behind : Text} (quotes : IsQuote quote) (front : s.rest = quote :: behind) :
    s.scan = s.string := by
  have noNumber : startsNumber s.rest = false := by
    rw [front]
    rcases quotes with rfl | rfl <;> rfl
  have isQuote : (decide (quote = '"') || decide (quote = '\x27')) = true := by simpa [IsQuote] using quotes
  rw [scan, front]
  simp only [← front, noNumber, isQuote, if_true, Bool.false_eq_true, if_false]

theorem scans_name : s.Scans (s.name, none) := by
  have whole : s.rest = s.rest.takeWhile CodePoint.continuesName ++ s.rest.dropWhile CodePoint.continuesName :=
    List.takeWhile_append_dropWhile.symm
  exact .made ⟨.identifier, _, .null, s.position⟩ whole rfl rfl

private theorem scans_mark {kind : TokenKind} (mark : kind.mark? = some c)
    (front : s.rest = c :: more) :
    s.Scans ((s.passing [c]).emit kind [c], none) := by
  have means : kind.Means [c] .null := by cases kind <;> cases mark <;> exact rfl
  rw [emit_mark s mark]
  exact .made ⟨kind, [c], .null, s.position⟩ front rfl means

theorem scans_scan (some_ : s.rest ≠ []) : s.Scans s.scan := by
  rw [scan]
  split
  · next none_ => exact absurd none_ some_
  · next c more front =>
    split
    · exact scans_number
    split
    · next quotes => exact scans_string (by simpa [IsQuote] using quotes) front
    split
    · next kind mark => exact scans_mark (TokenKind.ofMark?_eq_some_iff.mp mark) front
    split
    · exact scans_name
    split
    · exact .skipped [c] front
    · exact .failed [] (List.nil_append _).symm rfl

/-! Courses of steps. -/

def Moves (s next : Scanner) : Prop :=
  s.rest ≠ [] ∧ s.scan = (next, none)

abbrev Runs : Scanner → Scanner → Prop :=
  Relation.ReflTransGen Moves

/-- A token is made of what is at the front: it begins where the scanner is, and its shape and its value are those of
its kind. -/
structure Makes (s : Scanner) (token : Token) : Prop where
  front : ∃ more, s.rest = token.text ++ more
  written : token.kind ≠ .endOfInput
  shape : token.kind.IsShape token.text
  means : token.kind.Means token.text token.value
  begins : token.position = s.position

theorem Moves.cases (moves : s.Moves next) :
    next.tokens = s.tokens ∨ ∃ token, s.Makes token ∧ next = (s.passing token.text).add token := by
  obtain ⟨some_, scanned⟩ := moves
  have scans := scans_scan some_
  have reads := reads_scan some_
  rw [scanned] at scans reads
  cases scans with
  | skipped => exact .inl (tokens_passing s _)
  | @made token more front begins means =>
    have made : ((s.passing token.text).add token).tokens = s.tokens ++ [token] := by rw [tokens_add, tokens_passing]
    cases reads with
    | blank _ _ same | unterminated _ _ same =>
      rw [made] at same
      exact absurd same (by simp)
    | @token _ other written shape _ _ also =>
      rw [made] at also
      obtain rfl : token = other := by simpa using also
      exact .inr ⟨token, ⟨⟨more, front⟩, written, shape, means, begins⟩, rfl⟩

theorem Moves.length_lt (moves : s.Moves next) : next.rest.length < s.rest.length := by
  obtain ⟨some_, scanned⟩ := moves
  have reads := reads_scan some_
  rw [scanned] at reads
  cases reads with
  | blank _ front _ =>
    rw [front, List.length_cons]
    exact Nat.lt_succ_self _
  | token written shape _ front _ =>
    have text := List.length_pos_iff.mpr (shape.ne_nil written)
    rw [front, List.length_append]
    omega
  | unterminated _ end_ _ =>
    rw [end_]
    exact List.length_pos_iff.mpr some_

private theorem Runs.eq_of_end (runs : s.Runs last) (end_ : s.rest = []) : last = s := by
  rcases Relation.ReflTransGen.cases_head runs with same | ⟨next, moves, _⟩
  · exact same.symm
  · exact absurd end_ moves.1

theorem scanAll_of_moves (moves : s.Moves next) (rounds : Nat) : scanAll (rounds + 1) s = scanAll rounds next := by
  rw [scanAll, if_pos ((offset_lt_iff s).mpr moves.1), moves.2]

inductive Ends (s : Scanner) : Result → Prop where
  | atEnd {last : Scanner} (runs : s.Runs last) (end_ : last.rest = []) : Ends s (last, none)
  | failed {last after : Scanner} {failure : Error} (runs : s.Runs last) (some_ : last.rest ≠ [])
      (fails : last.scan = (after, some failure)) : Ends s (after, some failure)

theorem Ends.head {result : Result} (moves : s.Moves next) (ends : next.Ends result) : s.Ends result := by
  cases ends with
  | atEnd runs end_ => exact .atEnd (runs.head moves) end_
  | failed runs some_ fails => exact .failed (runs.head moves) some_ fails

private theorem ends_scanAll {rounds : Nat} (enough : s.rest.length ≤ rounds) :
    s.Ends (scanAll rounds s) := by
  induction rounds generalizing s with
  | zero => exact .atEnd .refl (List.length_eq_zero_iff.mp (Nat.le_zero.mp enough))
  | succ rounds hypothesis =>
    by_cases end_ : s.rest = []
    · rw [scanAll_of_end _ end_]
      exact .atEnd .refl end_
    · rcases scanned : s.scan with ⟨next, _ | failure⟩
      · have moves : s.Moves next := ⟨end_, scanned⟩
        rw [scanAll_of_moves moves]
        exact (hypothesis (Nat.le_of_lt_succ (moves.length_lt.trans_le enough))).head moves
      · rw [scanAll, if_pos ((offset_lt_iff s).mpr end_), scanned]
        exact .failed .refl end_ scanned

theorem ends_start (source : Text) : (start source).Ends (scanAll source.length (start source)) :=
  ends_scanAll (Nat.le_refl _)

private theorem scanAll_of_runs {rounds : Nat} (runs : s.Runs last) (end_ : last.rest = [])
    (enough : s.rest.length ≤ rounds) :
    scanAll rounds s = (last, none) := by
  induction runs using Relation.ReflTransGen.head_induction_on generalizing rounds with
  | refl => exact scanAll_of_end rounds end_
  | head moves _ hypothesis =>
    have shorter := moves.length_lt
    obtain ⟨fewer, rfl⟩ : ∃ fewer, rounds = fewer + 1 := Nat.exists_eq_add_one.mpr (by omega)
    rw [scanAll_of_moves moves]
    exact hypothesis (by omega)

theorem Runs.exists_makes {earlier later : List Token} (runs : s.Runs last)
    (made : last.tokens = s.tokens ++ (earlier ++ token :: later)) :
    ∃ maker, s.Runs maker ∧ maker.rest ≠ [] ∧ maker.tokens = s.tokens ++ earlier ∧ maker.Makes token := by
  induction runs generalizing later with
  | refl => exact absurd made (by simp)
  | @tail middle last runs moves hypothesis =>
    rcases moves.cases with same | ⟨newest, makes, rfl⟩
    · exact hypothesis (same.symm.trans made)
    · rw [tokens_add, tokens_passing] at made
      rcases List.eq_nil_or_concat later with rfl | ⟨later, final, rfl⟩
      · rw [← List.append_assoc] at made
        obtain ⟨same, rfl⟩ : middle.tokens = s.tokens ++ earlier ∧ newest = token := by
          simpa using List.append_inj' made rfl
        exact ⟨middle, runs, moves.1, same, makes⟩
      · rw [List.concat_eq_append, ← List.cons_append, ← List.append_assoc, ← List.append_assoc] at made
        exact hypothesis (by rw [← List.append_assoc]; exact (List.append_inj' made rfl).1)

/-- As long as anything is left, the tokens that were made divide what has been read. -/
theorem Runs.divided (runs : s.Runs last) (some_ : last.rest ≠ []) :
    ∃ tokens, last.tokens = s.tokens ++ tokens ∧ Divided s.rest tokens last.rest := by
  induction runs using Relation.ReflTransGen.head_induction_on with
  | refl => exact ⟨[], (List.append_nil _).symm, .done _⟩
  | @head s next moves runs hypothesis =>
    obtain ⟨tokens, made, divided⟩ := hypothesis
    have reads := reads_scan moves.1
    rw [moves.2] at reads
    cases reads with
    | blank separates front same => exact ⟨tokens, by rw [made, same], by rw [front]; exact .blank separates divided⟩
    | @token _ token written shape longest front also =>
      exact ⟨token :: tokens, by rw [made, also, List.append_assoc]; rfl,
        by rw [front]; exact .token written shape longest divided⟩
    | unterminated _ end_ _ =>
      rw [Runs.eq_of_end runs end_] at some_
      exact absurd end_ some_

end Scanner

section

variable {source : Text} {tokens : List Token} {failure : Error} {last : Scanner}

theorem tokenize_of_runs (runs : (Scanner.start source).Runs last) (end_ : last.rest = []) :
    tokenize source = .ok (last.tokens ++ [⟨.endOfInput, [], .null, last.position⟩]) := by
  have scanned : Scanner.scanAll source.length (Scanner.start source) = (last, none) :=
    Scanner.scanAll_of_runs runs end_ (Nat.le_refl _)
  rw [tokenize, Scanner.finish_start, scanned]
  exact congrArg Except.ok (Scanner.tokens_add last _)

theorem exists_runs_of_tokenize (made : tokenize source = .ok tokens) :
    ∃ last, (Scanner.start source).Runs last ∧ last.rest = [] ∧
      tokens = last.tokens ++ [⟨.endOfInput, [], .null, last.position⟩] := by
  have ends := Scanner.ends_start source
  rw [tokenize, Scanner.finish_start] at made
  rcases scanned : Scanner.scanAll source.length (Scanner.start source) with ⟨last, _ | failure⟩
  · rw [scanned] at ends made
    cases ends with
    | atEnd runs end_ =>
      cases made
      exact ⟨last, runs, end_, Scanner.tokens_add last _⟩
  · rw [scanned] at made
    cases made

theorem exists_runs_of_error (failed : tokenize source = .error failure) :
    ∃ last after, (Scanner.start source).Runs last ∧ last.rest ≠ [] ∧ last.scan = (after, some failure) ∧
      (Scanner.start source).finish = (after, some failure) := by
  have ends := Scanner.ends_start source
  rw [tokenize, Scanner.finish_start] at failed
  rw [Scanner.finish_start]
  rcases scanned : Scanner.scanAll source.length (Scanner.start source) with ⟨after, _ | reason⟩
  · rw [scanned] at failed
    cases failed
  · rw [scanned] at ends failed
    cases failed
    cases ends with
    | failed runs some_ fails => exact ⟨_, after, runs, some_, fails, rfl⟩

/-- All tokens of a source but the one for its end are made on one course of steps, also where scanning fails. -/
theorem exists_runs_finish (source : Text) : ∃ last, (Scanner.start source).Runs last ∧
    ∀ token ∈ (Scanner.start source).finish.1.tokens, token.kind ≠ .endOfInput → token ∈ last.tokens := by
  have ends := Scanner.ends_start source
  rw [Scanner.finish_start]
  generalize Scanner.scanAll source.length (Scanner.start source) = scanned at ends
  cases ends with
  | @atEnd last runs end_ =>
    refine ⟨last, runs, fun token member written => ?_⟩
    rw [Scanner.tokens_add] at member
    rcases List.mem_append.mp member with inside | final
    · exact inside
    · rw [List.mem_singleton.mp final] at written
      exact absurd rfl written
  | @failed last after failure runs some_ fails =>
    refine ⟨last, runs, fun token member _ => ?_⟩
    have reads := Scanner.reads_scan some_
    rw [fails] at reads
    cases reads with
    | failed _ same => exact same ▸ member

end

end GuardedExpr

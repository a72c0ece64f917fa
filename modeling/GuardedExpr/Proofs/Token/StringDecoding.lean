import GuardedExpr.Proofs.Token.ScanSteps

/-!
Strings stand for what their pieces stand for, and are read in no other way: a string is read up to the first quote
that is no part of a piece, an escape that lacks digits is what a string can fail for, and without either it goes on
to the end of the source and is nothing.
-/

namespace GuardedExpr

open Lexeme

def Piece.token {quote : CodePoint} (pieces : List (Piece quote)) (place : Position) : Token :=
  ⟨.string, literal pieces, .text (meanings pieces), place⟩

namespace Scanner

variable {s next : Scanner} {quote : CodePoint} {behind rest : Text} {token : Token} {position : Position}

private theorem rest_ne_nil_of_scan (scanned : s.scan = (next, none)) : s.rest ≠ [] := by
  intro end_
  rw [scan, end_] at scanned
  cases scanned

theorem scan_of_literal (quotes : IsQuote quote) (pieces : List (Piece quote))
    (front : s.rest = Piece.literal pieces ++ rest) :
    s.scan = ((s.passing (Piece.literal pieces)).add (Piece.token pieces s.position), none) :=
  (scan_of_quote quotes front).trans (string_closed quotes pieces front)

private theorem exists_pieces_of_scan (scanned : s.scan = (next, none))
    (made : next.tokens = s.tokens ++ [token])
    (kind : token.kind = .string) :
    ∃ quote, IsQuote quote ∧ ∃ pieces : List (Piece quote), s.rest = Piece.literal pieces ++ next.rest ∧
      token = Piece.token pieces s.position := by
  have scans := scans_scan (rest_ne_nil_of_scan scanned)
  rw [scanned] at scans
  cases scans with
  | skipped =>
    rw [tokens_passing] at made
    exact absurd made (by simp)
  | @made other more front begins means =>
    rw [tokens_add, tokens_passing] at made
    obtain rfl : other = token := by simpa using made
    rw [kind] at means
    obtain ⟨quote, quotes, pieces, text, value⟩ := means
    refine ⟨quote, quotes, pieces, ?_, ?_⟩
    · rw [rest_add, rest_passing front, ← text]
      exact front
    · cases other
      cases kind
      cases text
      cases value
      cases begins
      rfl

/-- A scan fails for an escape just where pieces are followed by an escape that lacks digits, and at its backslash. -/
theorem scan_badEscape_iff : s.scan.2 = some (.invalidEscape position) ↔
    ∃ quote, IsQuote quote ∧ ∃ (pieces : List (Piece quote)) (rest : Text),
      s.rest = quote :: (Piece.spellings pieces ++ CodePoint.ofChar '\\' :: CodePoint.ofChar 'u' :: rest) ∧
      ¬ BeginsWithHex rest ∧ position = (s.passing (quote :: Piece.spellings pieces)).position := by
  constructor
  · intro failed
    have some_ : s.rest ≠ [] := by
      intro end_
      rw [scan, end_] at failed
      cases failed
    have scans := scans_scan some_
    rcases scanned : s.scan with ⟨after, outcome⟩
    rw [scanned] at scans failed
    cases failed
    cases scans with
    | failed _ _ blames => exact blames
  · rintro ⟨quote, quotes, pieces, rest, front, lacks, rfl⟩
    rw [scan_of_quote quotes front, string_badEscape pieces lacks front]

/-- Where no piece is followed by the closing quote or by an escape that lacks digits, all that is left is read. -/
theorem scan_unterminated (quotes : IsQuote quote) (front : s.rest = quote :: behind)
    (open_ : ∀ (pieces : List (Piece quote)) (rest : Text), behind ≠ Piece.spellings pieces ++ quote :: rest)
    (sound : ∀ (pieces : List (Piece quote)) (rest : Text),
      behind = Piece.spellings pieces ++ CodePoint.ofChar '\\' :: CodePoint.ofChar 'u' :: rest → BeginsWithHex rest) :
    s.scan = (s.passing s.rest, none) := by
  rw [scan_of_quote quotes front]
  cases Piece.ending quote behind with
  | closed pieces rest => exact absurd rfl (open_ pieces rest)
  | unterminated pieces ends => exact string_unterminated pieces ends front
  | badEscape pieces lacks => exact absurd (sound pieces _ rfl) lacks

end Scanner

/-- All strings of a source, whether scanning it fails or not, are made of pieces. -/
theorem exists_pieces_of_finish {source : Text} {token : Token}
    (made : token ∈ (Scanner.start source).finish.1.tokens) (kind : token.kind = .string) :
    ∃ quote, IsQuote quote ∧ ∃ pieces : List (Piece quote), token = Piece.token pieces token.position := by
  obtain ⟨last, runs, all⟩ := exists_runs_finish source
  have written : token.kind ≠ .endOfInput := by
    rw [kind]
    exact nofun
  obtain ⟨earlier, later, split⟩ := List.append_of_mem (all token made written)
  obtain ⟨maker, _, _, _, makes⟩ := Scanner.Runs.exists_makes runs split
  have means := makes.means
  rw [kind] at means
  obtain ⟨quote, quotes, pieces, text, value⟩ := means
  refine ⟨quote, quotes, pieces, ?_⟩
  cases token
  cases kind
  cases text
  cases value
  rfl

/-- A string between quotes of either kind is read as what its pieces stand for, whatever follows it, and every string
arises so. Only an escape without digits makes a scan fail for an escape, at its backslash and before any quote that
closes the string. With neither a closing quote nor such an escape, all that is left is read and no token is made. -/
theorem strings_are_read_by_pieces :
    (∀ s : Scanner,
      (∀ quote, IsQuote quote → ∀ (pieces : List (Piece quote)) (rest : Text),
        s.rest = Piece.literal pieces ++ rest → ∃ next, s.string = (next, none) ∧ s.scan = (next, none) ∧
          next.rest = rest ∧ next.offset = s.offset + (Piece.literal pieces).length ∧
          next.tokens = s.tokens ++ [Piece.token pieces s.position]) ∧
      (∀ next token, s.scan = (next, none) → next.tokens = s.tokens ++ [token] → token.kind = .string →
        ∃ quote, IsQuote quote ∧ ∃ pieces : List (Piece quote), s.rest = Piece.literal pieces ++ next.rest ∧
          token = Piece.token pieces s.position) ∧
      (∀ position, s.scan.2 = some (.invalidEscape position) ↔
        ∃ quote, IsQuote quote ∧ ∃ (pieces : List (Piece quote)) (rest : Text),
          s.rest = quote :: (Piece.spellings pieces ++ CodePoint.ofChar '\\' :: CodePoint.ofChar 'u' :: rest) ∧
          ¬ BeginsWithHex rest ∧ position = (s.passing (quote :: Piece.spellings pieces)).position) ∧
      ∀ quote behind, IsQuote quote → s.rest = quote :: behind →
        (∀ (pieces : List (Piece quote)) (rest : Text), behind ≠ Piece.spellings pieces ++ quote :: rest) →
        (∀ (pieces : List (Piece quote)) (rest : Text),
          behind = Piece.spellings pieces ++ CodePoint.ofChar '\\' :: CodePoint.ofChar 'u' :: rest →
          BeginsWithHex rest) →
        ∃ next, s.scan = (next, none) ∧ next.rest = [] ∧ next.offset = s.offset + s.rest.length ∧
          next.tokens = s.tokens) ∧
    ∀ source, ∀ token ∈ (Scanner.start source).finish.1.tokens, token.kind = .string →
      ∃ quote, IsQuote quote ∧ ∃ pieces : List (Piece quote), token = Piece.token pieces token.position := by
  refine ⟨fun s => ⟨fun quote quotes pieces rest front => ?_, fun next token => Scanner.exists_pieces_of_scan,
    fun position => Scanner.scan_badEscape_iff, fun quote behind quotes front open_ sound => ?_⟩,
    fun source token => exists_pieces_of_finish⟩
  · have scanned := Scanner.scan_of_literal quotes pieces front
    refine ⟨_, (Scanner.scan_of_quote quotes front).symm.trans scanned, scanned, ?_, rfl, ?_⟩
    · rw [Scanner.rest_add, Scanner.rest_passing front]
    · rw [Scanner.tokens_add, Scanner.tokens_passing]
  · refine ⟨_, Scanner.scan_unterminated quotes front open_ sound, ?_, rfl, Scanner.tokens_passing s _⟩
    exact Scanner.rest_passing (List.append_nil _).symm

/-- A quote behind a backslash does not end the string. -/
theorem reads_quote_and_number :
    let s := Scanner.start (Text.of "'\\'\\u0041'b")
    ∃ next, s.scan = (next, none) ∧ next.rest = Text.of "b" ∧
      next.tokens = [⟨.string, Text.of "'\\'\\u0041'", .text (Text.of "'A"), ⟨1, 1⟩⟩] := by
  intro s
  let pieces : List (Piece (CodePoint.ofChar '\x27')) :=
    [.escaped (CodePoint.ofChar '\x27') (by decide), .numbered (Text.of "0041") rfl (List.all_eq_true.mp rfl)]
  have front : s.rest = Piece.literal pieces ++ Text.of "b" := rfl
  obtain ⟨next, _, scanned, rest, _, made⟩ := (strings_are_read_by_pieces.1 s).1 _ (.inr rfl) pieces _ front
  exact ⟨next, scanned, rest, made⟩

end GuardedExpr

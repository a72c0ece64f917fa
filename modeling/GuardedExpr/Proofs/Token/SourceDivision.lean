import GuardedExpr.Proofs.Node.WrittenTrees
import GuardedExpr.Proofs.Token.TokenShapes

/-!
Nothing of a source is lost, read twice or given to the wrong token: the texts of the tokens, the blanks between
them and what is left at the end make up the source, and each token is as long as its kind allows.
-/

namespace GuardedExpr

open Lexeme

variable {s : Scanner} {kind : TokenKind} {text rest left : Text} {c : CodePoint}

def TokenKind.mark? : TokenKind → Option CodePoint
  | .leftBracket => some '['
  | .rightBracket => some ']'
  | .leftBrace => some '\x7b'
  | .rightBrace => some '\x7d'
  | .leftParen => some '('
  | .rightParen => some ')'
  | .comma => some ','
  | .colon => some ':'
  | .dot => some '.'
  | .assign => some '='
  | _ => none

def TokenKind.IsShape (kind : TokenKind) (text : Text) : Prop :=
  match kind with
  | .number => IsNumber text
  | .string => IsString text
  | .identifier => IsName text
  | other => text = other.mark?.toList

def TokenKind.IsLongest (kind : TokenKind) (text rest : Text) : Prop :=
  (∀ more after, rest = more ++ after → kind.IsShape (text ++ more) → more = []) ∧
    (kind = .dot → ∀ c ∈ rest.head?, c.isDigit = false)

inductive Divided : Text → List Token → Text → Prop where
  | done (left : Text) : Divided left [] left
  | blank {c : CodePoint} {rest left : Text} {tokens : List Token} (separates : c.separatesTokens)
      (more : Divided rest tokens left) : Divided (c :: rest) tokens left
  | token {token : Token} {rest left : Text} {tokens : List Token} (written : token.kind ≠ .endOfInput)
      (shape : token.kind.IsShape token.text) (longest : token.kind.IsLongest token.text rest)
      (more : Divided rest tokens left) : Divided (token.text ++ rest) (token :: tokens) left

def BeginsNothing (c : CodePoint) (rest : Text) : Prop :=
  ¬ Scanner.startsNumber (c :: rest) ∧ ¬ IsQuote c ∧ TokenKind.ofMark? c = none ∧ c.startsName = false ∧
    c.separatesTokens = false

/-- What a failure of the scanner says about the text that it is met at: it begins with nothing that there is a token
for, or with a number whose exponent lacks digits, or with a string that has an escape without digits, or with a
whole number of too many digits. -/
def Error.Offends (failure : Error) (text : Text) : Prop :=
  match failure with
  | .unexpectedCharacter c _ => ∃ rest, text = c :: rest ∧ BeginsNothing c rest
  | .invalidExponent _ => ∃ body marker rest, text = body ++ marker :: rest ∧ Scanner.startsNumber body ∧
      (∀ c ∈ body, c.isDigitOrPoint) ∧ Decimal.isMarker marker ∧
      ∀ front after, marker :: rest = front ++ after → ¬ IsExponent front
  | .invalidEscape _ => HasBadEscape text
  | .fault (.tooManyDigits count) => ∃ digits rest, text = digits ++ rest ∧ count = digits.length ∧
      Numeral.digitLimit < count ∧ (∀ c ∈ digits, c.isDigit) ∧ TokenKind.number.IsLongest digits rest
  | _ => False

namespace TokenKind

theorem ofMark?_eq_some_iff : ofMark? c = some kind ↔ kind.mark? = some c := by
  constructor
  · intro read
    simp only [ofMark?, ite_eq_iff, Option.some.injEq, reduceCtorEq, and_false, or_false] at read
    rcases read with ⟨rfl, rfl⟩ | ⟨_, ⟨rfl, rfl⟩ | ⟨_, ⟨rfl, rfl⟩ | ⟨_, ⟨rfl, rfl⟩ | ⟨_, ⟨rfl, rfl⟩ | ⟨_, ⟨rfl, rfl⟩ |
      ⟨_, ⟨rfl, rfl⟩ | ⟨_, ⟨rfl, rfl⟩ | ⟨_, ⟨rfl, rfl⟩ | ⟨_, rfl, rfl⟩⟩⟩⟩⟩⟩⟩⟩⟩ <;> rfl
  · intro written
    cases kind <;> cases written <;> rfl

theorem isShape_of_mark (mark : kind.mark? = some c) : kind.IsShape text ↔ text = [c] := by
  cases kind <;> cases mark <;> exact Iff.rfl

theorem IsShape.ne_nil (written : kind ≠ .endOfInput) (shape : kind.IsShape text) : text ≠ [] := by
  rintro rfl
  cases kind with
  | number =>
    obtain ⟨body, tail, same, starts, _⟩ := shape
    rw [(List.append_eq_nil_iff.mp same.symm).1] at starts
    cases starts
  | string =>
    obtain ⟨_, _, _, same, _⟩ := shape
    cases same
  | identifier =>
    obtain ⟨_, _, same, _⟩ := shape
    cases same
  | endOfInput => exact written rfl
  | _ => cases shape

/-- Nothing can be added to a mark, and a point that a digit follows is no mark. -/
theorem isLongest_of_mark (mark : kind.mark? = some c) (starts : ¬ Scanner.startsNumber (c :: rest)) :
    kind.IsLongest [c] rest := by
  constructor
  · intro more after _ longer
    exact (List.cons.inj ((isShape_of_mark mark).mp longer)).2
  · rintro rfl d first
    cases mark
    cases rest with
    | nil => cases first
    | cons e rest =>
      cases first
      have neither : (CodePoint.ofChar '.').isDigit = false ∧ d.isDigit = false := by
        simpa [Scanner.startsNumber] using starts
      exact neither.2

end TokenKind

/-- How the text that is left at the end is: there is none, or it is a string that no quote ends, or a failure is
about it. -/
def StopsAt (left : Text) : Option Error → Prop
  | none => left = [] ∨ IsUnterminated left
  | some failure => failure.Offends left

namespace Scanner

theorem tokens_passing (s : Scanner) (lexeme : Text) : (s.passing lexeme).tokens = s.tokens :=
  congrArg List.reverse (produced_foldl_step s lexeme)

theorem rest_passing {lexeme more : Text} (front : s.rest = lexeme ++ more) : (s.passing lexeme).rest = more := by
  rw [rest, source_passing, offset_passing, ← List.drop_drop]
  change s.rest.drop lexeme.length = more
  rw [front, List.drop_left]

theorem tokens_add (s : Scanner) (token : Token) : (s.add token).tokens = s.tokens ++ [token] :=
  List.reverse_cons

theorem rest_add (s : Scanner) (token : Token) : (s.add token).rest = s.rest :=
  rfl

/-- The scanner is at the end exactly where nothing is left. -/
theorem offset_lt_iff (s : Scanner) : s.offset < s.source.length ↔ s.rest ≠ [] := by
  rw [rest, Ne, List.drop_eq_nil_iff, Nat.not_le]

/-- What one step makes of what is left: it reads a blank or a token, finds that a string has no end, or fails at
what it finds. -/
inductive Reads (s : Scanner) : Result → Prop where
  | blank {next : Scanner} {c : CodePoint} (separates : c.separatesTokens) (front : s.rest = c :: next.rest)
      (same : next.tokens = s.tokens) : Reads s (next, none)
  | token {next : Scanner} {token : Token} (written : token.kind ≠ .endOfInput)
      (shape : token.kind.IsShape token.text) (longest : token.kind.IsLongest token.text next.rest)
      (front : s.rest = token.text ++ next.rest) (made : next.tokens = s.tokens ++ [token]) : Reads s (next, none)
  | unterminated {next : Scanner} (open_ : IsUnterminated s.rest) (end_ : next.rest = [])
      (same : next.tokens = s.tokens) : Reads s (next, none)
  | failed {last : Scanner} {failure : Error} (offends : failure.Offends s.rest) (same : last.tokens = s.tokens) :
      Reads s (last, some failure)

theorem reads_of_front (token : Token) {more : Text} (front : s.rest = token.text ++ more)
    (written : token.kind ≠ .endOfInput) (shape : token.kind.IsShape token.text)
    (longest : token.kind.IsLongest token.text more) : s.Reads ((s.passing token.text).add token, none) := by
  have behind : ((s.passing token.text).add token).rest = more := by rw [rest_add, rest_passing front]
  refine .token written shape ?_ ?_ ?_
  · rw [behind]; exact longest
  · rw [behind]; exact front
  · rw [tokens_add, tokens_passing]

/-- A number of which the lexeme is known is read, unless it has too many digits. -/
theorem reads_numeral {lexeme more : Text} (front : s.rest = lexeme ++ more) (shape : IsNumber lexeme)
    (longest : TokenKind.number.IsLongest lexeme more) : s.Reads (s.numeral lexeme) := by
  rw [numeral]
  split
  · next value _ =>
    exact reads_of_front ⟨.number, lexeme, value, s.position⟩ front nofun shape longest
  · next failure failed =>
    refine .failed ?_ (tokens_passing s lexeme)
    unfold numberValue at failed
    split at failed
    · next digits =>
      split at failed
      · next many =>
        cases failed
        rw [Bool.and_eq_true, List.all_eq_true] at digits
        exact ⟨lexeme, more, front, rfl, many, digits.2, longest⟩
      · cases failed
    · split at failed <;> cases failed

/-- Digits and points are read as far as there are any, with the exponent behind them. -/
theorem reads_number (starts : startsNumber s.rest) : s.Reads s.number := by
  have whole : s.rest = s.rest.takeWhile CodePoint.isDigitOrPoint ++ s.rest.dropWhile CodePoint.isDigitOrPoint :=
    List.takeWhile_append_dropWhile.symm
  have all : ∀ c ∈ s.rest.takeWhile CodePoint.isDigitOrPoint, c.isDigitOrPoint := fun _ => List.mem_takeWhile_imp
  have stops : ∀ c ∈ (s.rest.dropWhile CodePoint.isDigitOrPoint).head?, c.isDigitOrPoint = false := head?_dropWhile
  rw [number]
  split
  · next absent =>
    refine reads_numeral whole (isNumber_of_absent starts) ⟨fun more after same longer => ?_, nofun⟩
    have unmarked := exponent_of_absent absent
    rw [same] at stops unmarked
    exact longest_of_absent all stops unmarked longer
  · next lexeme present =>
    obtain ⟨shape, behind, same, digits⟩ := exponent_of_present present
    rw [same, ← List.append_assoc] at whole
    refine reads_numeral whole (isNumber_of_present starts shape) ⟨fun more after split longer => ?_, nofun⟩
    rw [split] at digits
    exact longest_of_present all shape digits longer
  · next consumed malformed =>
    obtain ⟨⟨marker, first, marks⟩, behind, same⟩ := exponent_of_malformed malformed
    refine .failed ?_ (tokens_passing s _)
    obtain ⟨tail, exact_⟩ : ∃ tail, s.rest.dropWhile CodePoint.isDigitOrPoint = marker :: tail :=
      List.head?_eq_some_iff.mp first
    rw [exact_] at whole malformed
    refine ⟨_, marker, tail, whole, startsNumber_takeWhile starts, all, marks, fun front after split => ?_⟩
    refine not_isExponent_of_front (fun lexeme present => ?_) split
    rw [malformed] at present
    cases present

/-- A string is read up to its closing quote, or to the end where there is none. -/
theorem reads_string {more : Text} (front : s.rest = c :: more) (quotes : IsQuote c) : s.Reads s.string := by
  have fits := fits_body c more
  rw [string, front]
  dsimp only
  split
  · next lexeme value read =>
    rw [read] at fits
    obtain ⟨inside, behind, shape, rfl, rfl⟩ := fits
    have isString : IsString (c :: (inside ++ [c])) := ⟨c, inside, quotes, rfl, shape⟩
    exact reads_of_front ⟨.string, c :: (inside ++ [c]), .text value, s.position⟩ front nofun isString
      ⟨fun _ _ _ => longest_string isString, nofun⟩
  · next read =>
    rw [read] at fits
    obtain ⟨inside, last, shape, rfl, ends⟩ := fits
    refine .unterminated ⟨c, inside, last, quotes, front, shape, ends⟩ ?_ (tokens_passing s _)
    exact rest_passing (by rw [front, List.append_nil])
  · next before read =>
    rw [read] at fits
    obtain ⟨shape, behind, rfl, bad⟩ := fits
    refine .failed ⟨c, before, behind, quotes, front, shape, bad⟩ ?_
    rw [tokens_passing, tokens_passing]

private theorem reads_name {more : Text} (front : s.rest = c :: more) (starts : c.startsName) :
    s.Reads (s.name, none) := by
  have whole : s.rest = s.rest.takeWhile CodePoint.continuesName ++ s.rest.dropWhile CodePoint.continuesName :=
    List.takeWhile_append_dropWhile.symm
  have shape : IsName (s.rest.takeWhile CodePoint.continuesName) := by rw [front]; exact isName_takeWhile starts
  refine reads_of_front ⟨.identifier, _, .null, s.position⟩ whole nofun shape ⟨?_, nofun⟩
  intro longer after split isName
  have stops : ∀ c ∈ (s.rest.dropWhile CodePoint.continuesName).head?, c.continuesName = false := head?_dropWhile
  rw [split] at stops
  exact eq_nil_of_all (continuesName_of_isName isName) stops

theorem reads_scan (some_ : s.rest ≠ []) : s.Reads s.scan := by
  obtain ⟨c, more, front⟩ := List.exists_cons_of_ne_nil some_
  rw [scan]
  split
  · next none_ => exact absurd none_ some_
  · next c' more' front' =>
    rw [front] at front'
    cases front'
    split
    · next starts => exact reads_number starts
    · next noNumber =>
      rw [front] at noNumber
      split
      · next quotes => exact reads_string front (by simpa [IsQuote] using quotes)
      · next unquoted =>
        split
        · next kind mark =>
          have written := TokenKind.ofMark?_eq_some_iff.mp mark
          refine reads_of_front ⟨kind, [c], .null, _⟩ front ?_ ((TokenKind.isShape_of_mark written).mpr rfl)
            (TokenKind.isLongest_of_mark written noNumber)
          rintro rfl
          cases written
        · next unmarked =>
          split
          · next starts => exact reads_name front starts
          · next unnamed =>
            split
            · next separates =>
              exact .blank separates (by rw [rest_passing front]; exact front) (tokens_passing s _)
            · next unseparated =>
              refine .failed ⟨more, front, noNumber, ?_, unmarked, ?_, ?_⟩ rfl
              · simpa [IsQuote] using unquoted
              · simpa using unnamed
              · simpa using unseparated

theorem scanAll_of_end (rounds : Nat) (end_ : s.rest = []) : scanAll rounds s = (s, none) := by
  cases rounds with
  | zero => rfl
  | succ rounds => rw [scanAll, if_neg fun open_ => (offset_lt_iff s).mp open_ end_]

def Divides (s : Scanner) (result : Result) : Prop :=
  ∃ tokens left, result.1.tokens = s.tokens ++ tokens ∧ Divided s.rest tokens left ∧ StopsAt left result.2

theorem divides_atOnce {last : Scanner} {outcome : Option Error} (same : last.tokens = s.tokens)
    (stops : StopsAt s.rest outcome) : s.Divides (last, outcome) :=
  ⟨[], s.rest, by rw [same, List.append_nil], .done _, stops⟩

theorem divides_scanAll {rounds : Nat} (enough : s.rest.length ≤ rounds) : s.Divides (scanAll rounds s) := by
  induction rounds generalizing s with
  | zero => exact divides_atOnce rfl (.inl (List.length_eq_zero_iff.mp (Nat.le_zero.mp enough)))
  | succ rounds hypothesis =>
    by_cases end_ : s.rest = []
    · rw [scanAll_of_end _ end_]
      exact divides_atOnce rfl (.inl end_)
    have reads := reads_scan end_
    rw [scanAll, if_pos ((offset_lt_iff s).mpr end_)]
    generalize s.scan = scanned at reads
    cases reads with
    | @blank next c separates front same =>
      rw [front, List.length_cons] at enough
      obtain ⟨tokens, left, further, divided, stops⟩ := hypothesis (Nat.le_of_succ_le_succ enough)
      exact ⟨tokens, left, by rw [further, same], by rw [front]; exact .blank separates divided, stops⟩
    | @token next token written shape longest front made =>
      have some_ := List.length_pos_iff.mpr (shape.ne_nil written)
      rw [front, List.length_append] at enough
      have fewer : next.rest.length ≤ rounds := by omega
      obtain ⟨tokens, left, further, divided, stops⟩ := hypothesis fewer
      exact ⟨token :: tokens, left, by rw [further, made, List.append_assoc]; rfl,
        by rw [front]; exact .token written shape longest divided, stops⟩
    | unterminated open_ behind same =>
      dsimp only
      rw [scanAll_of_end _ behind]
      exact divides_atOnce same (.inr open_)
    | failed offends same => exact divides_atOnce same offends

theorem finish_start (source : Text) : (start source).finish =
    match scanAll source.length (start source) with
    | (last, none) => (last.add ⟨.endOfInput, [], .null, last.position⟩, none)
    | failed => failed :=
  rfl

end Scanner

variable {source : Text}

/-- The tokens of a source divide it up to its end, or up to a string that no quote ends. -/
theorem divided_of_tokenize {tokens : List Token} (made : tokenize source = .ok tokens) :
    ∃ body last left, tokens = body ++ [last] ∧ last.kind = .endOfInput ∧ last.text = [] ∧
      Divided source body left ∧ (left = [] ∨ IsUnterminated left) := by
  have divides : (Scanner.start source).Divides (Scanner.scanAll source.length (Scanner.start source)) :=
    Scanner.divides_scanAll (Nat.le_refl _)
  rw [tokenize, Scanner.finish_start] at made
  rcases scanned : Scanner.scanAll source.length (Scanner.start source) with ⟨last, _ | failure⟩
  · rw [scanned] at divides made
    obtain ⟨tokens, left, read, divided, stops⟩ := divides
    cases made
    exact ⟨tokens, _, left, by rw [Scanner.tokens_add, read]; rfl, rfl, rfl, divided, stops⟩
  · rw [scanned] at made
    cases made

/-- Where the scanner fails, the tokens it has made divide the source up to what it fails at. -/
theorem offends_of_tokenize {failure : Error} (failed : tokenize source = .error failure) :
    ∃ last left, (Scanner.start source).finish = (last, some failure) ∧ Divided source last.tokens left ∧
      failure.Offends left := by
  have divides : (Scanner.start source).Divides (Scanner.scanAll source.length (Scanner.start source)) :=
    Scanner.divides_scanAll (Nat.le_refl _)
  rw [tokenize, Scanner.finish_start] at failed
  rw [Scanner.finish_start]
  rcases scanned : Scanner.scanAll source.length (Scanner.start source) with ⟨last, _ | reason⟩
  · rw [scanned] at failed
    cases failed
  · rw [scanned] at divides failed
    obtain ⟨tokens, left, read, divided, stops⟩ := divides
    cases failed
    exact ⟨last, left, rfl, by rw [read]; exact divided, stops⟩

/-- The tokens of a source divide it, each with the shape of its kind and as long as it can be: their texts and the
blanks between them make up the source up to its end, or up to a string that no quote ends. Where the scanner fails,
the tokens it has made divide the source in the same way up to what it fails at. -/
theorem tokenize_divides (source : Text) :
    match tokenize source with
    | .ok tokens => ∃ body last left, tokens = body ++ [last] ∧ last.kind = .endOfInput ∧ last.text = [] ∧
        Divided source body left ∧ (left = [] ∨ IsUnterminated left)
    | .error failure => ∃ last left, (Scanner.start source).finish = (last, some failure) ∧
        Divided source last.tokens left ∧ failure.Offends left := by
  split
  · next made => exact divided_of_tokenize made
  · next failed => exact offends_of_tokenize failed

end GuardedExpr

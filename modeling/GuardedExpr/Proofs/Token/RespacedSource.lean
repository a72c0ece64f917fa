import GuardedExpr.Proofs.Token.StringDecoding

/-!
Blanks only keep tokens apart. What a token is read as is told by its text, whatever stood around it, so the texts of
the tokens of a source with blanks between them are read as the same tokens, at other places.
-/

namespace GuardedExpr

open Lexeme

def Value.unmarked : Value → Value
  | .float (.nan _) => .float (.nan 0)
  | value => value

namespace Token

def content (token : Token) : TokenKind × Text × Value :=
  (token.kind, token.text, token.value.unmarked)

structure IsSound (token : Token) : Prop where
  written : token.kind ≠ .endOfInput
  shape : token.kind.IsShape token.text
  means : token.kind.Means token.text token.value

end Token

inductive Spread : List Token → Text → Prop where
  | done : Spread [] []
  | blank {tokens : List Token} {c : CodePoint} {rest : Text} (separates : c.separatesTokens)
      (more : Spread tokens rest) : Spread tokens (c :: rest)
  | token {token : Token} {tokens : List Token} {rest : Text} (apart : ∀ c ∈ rest.head?, c.separatesTokens)
      (more : Spread tokens rest) : Spread (token :: tokens) (token.text ++ rest)

def respaced (tokens : List Token) : Text :=
  Text.join (Text.of " ") ((tokens.filter (·.kind ≠ .endOfInput)).map Token.text)

/-! A blank continues nothing. -/

theorem CodePoint.of_separates {c : CodePoint} (separates : c.separatesTokens) :
    c.isDigitOrPoint = false ∧ c.continuesName = false ∧ Decimal.isMarker c = false ∧ ¬ IsQuote c ∧
      TokenKind.ofMark? c = none := by
  have cases : c = ' ' ∨ c = '\r' ∨ c = '\t' ∨ c = '\n' ∨ c.val = 0x0B ∨ c.val = 0xA0 := by
    simpa [CodePoint.separatesTokens, or_assoc] using separates
  unfold IsQuote
  rcases cases with rfl | rfl | rfl | rfl | point | point
  · decide
  · decide
  · decide
  · decide
  · obtain rfl : c = ⟨0x0B, by decide⟩ := Fin.ext point
    decide
  · obtain rfl : c = ⟨0xA0, by decide⟩ := Fin.ext point
    decide

private theorem CodePoint.of_startsName {c : CodePoint} (starts : c.startsName) :
    c.isDigitOrPoint = false ∧ ¬ IsQuote c ∧ TokenKind.ofMark? c = none := by
  refine ⟨?_, ?_, Option.eq_none_iff_forall_ne_some.mpr fun kind mark => ?_⟩
  · simp only [startsName, Bool.or_eq_true, decide_eq_true_eq] at starts
    rcases starts with (letter | rfl) | rfl
    · have noDigit : ¬ c.isDigit := by
        rw [isLetter_iff] at letter
        rw [isDigit_iff]
        omega
      have noPoint : c ≠ '.' := by
        rintro rfl
        cases letter
      simp [isDigitOrPoint, noDigit, noPoint]
    · decide
    · decide
  · rintro (rfl | rfl) <;> cases starts
  · have written := TokenKind.ofMark?_eq_some_iff.mp mark
    cases kind <;> cases written <;> cases starts

namespace Scanner

variable {s next last : Scanner} {token : Token} {tokens : List Token} {kind : TokenKind} {text more : Text}
  {c : CodePoint}

private theorem startsNumber_append {front : Text} (starts : startsNumber front) (more : Text) :
    startsNumber (front ++ more) := by
  match front with
  | [] => cases starts
  | [c] =>
    have digit : c.isDigit := by simpa [startsNumber] using starts
    simp [startsNumber, digit]
  | c :: d :: front => exact starts

theorem startsNumber_of_neither (neither : c.isDigitOrPoint = false) : startsNumber (c :: more) = false := by
  simp only [CodePoint.isDigitOrPoint, Bool.or_eq_false_iff] at neither
  simp [startsNumber, neither]

theorem scan_blank (front : s.rest = c :: more) (separates : c.separatesTokens) : s.scan = (s.passing [c], none) := by
  obtain ⟨digit, named, _, quotes, mark⟩ := CodePoint.of_separates separates
  simp only [CodePoint.continuesName, Bool.or_eq_false_iff] at named
  simp only [IsQuote, not_or] at quotes
  have noNumber : startsNumber s.rest = false := by rw [front]; exact startsNumber_of_neither digit
  rw [scan, front]
  simp only [← front, noNumber, quotes, decide_false, Bool.or_self, Bool.false_eq_true, if_false, mark, named.1,
    separates, if_true]

theorem scan_of_startsNumber (starts : startsNumber s.rest) : s.scan = s.number := by
  rw [scan]
  split
  · next none_ =>
    rw [none_] at starts
    cases starts
  · rw [if_pos starts]

theorem scan_of_number {body tail : Text} (starts : startsNumber body) (all : ∀ c ∈ body, c.isDigitOrPoint)
    (ends : EndsNumber tail more) (front : s.rest = body ++ (tail ++ more)) : s.scan = s.numeral (body ++ tail) := by
  have stops : ∀ c ∈ (tail ++ more).head?, c.isDigitOrPoint = false := by
    cases ends with
    | bare stops => exact stops
    | exponent shape =>
      obtain ⟨marker, _, _, rfl, marks, _⟩ := shape
      rintro c ⟨⟩
      exact not_isDigitOrPoint_of_isMarker marks
  obtain ⟨taken, dropped⟩ := span_of_all all stops
  have read : s.number = s.numeral (body ++ tail) := by
    cases ends with
    | bare _ unmarked =>
      rw [number, front, taken, dropped, List.nil_append, exponent_of_unmarked unmarked, List.append_nil]
    | exponent shape noDigit =>
      have digits : more.takeWhile CodePoint.isDigit = [] := (span_of_all (List.forall_mem_nil _) noDigit).1
      rw [number, front, taken, dropped, exponent_of_isExponent shape, digits, List.append_nil]
  refine (scan_of_startsNumber ?_).trans read
  rw [front]
  exact startsNumber_append starts _

/-- A name is read as a whole where nothing goes on with it. -/
theorem scan_of_name (shape : IsName text) (stops : ∀ c ∈ more.head?, c.continuesName = false)
    (front : s.rest = text ++ more) :
    s.scan = ((s.passing text).add ⟨.identifier, text, .null, s.position⟩, none) := by
  have taken : s.rest.takeWhile CodePoint.continuesName = text := by
    rw [front]
    exact (span_of_all (continuesName_of_isName shape) stops).1
  have named : s.name = (s.passing text).add ⟨.identifier, text, .null, s.position⟩ := by rw [name, taken]
  obtain ⟨c, rest, rfl, starts, _⟩ := shape
  obtain ⟨neither, quotes, mark⟩ := CodePoint.of_startsName starts
  simp only [IsQuote, not_or] at quotes
  rw [← named, scan, front]
  simp only [List.cons_append, startsNumber_of_neither neither, quotes, decide_false, Bool.or_self, mark, starts,
    Bool.false_eq_true, if_false, if_true]

/-- A mark is read as such where no number begins with it. -/
theorem scan_of_mark (mark : kind.mark? = some c) (starts : startsNumber (c :: more) = false)
    (front : s.rest = c :: more) :
    s.scan = ((s.passing [c]).add ⟨kind, [c], .null, s.position⟩, none) := by
  have noQuote : (decide (c = '"') || decide (c = '\x27')) = false := by cases kind <;> cases mark <;> rfl
  rw [scan, front]
  simp only [starts, noQuote, TokenKind.ofMark?_eq_some_iff.mpr mark, Bool.false_eq_true, if_false]
  rw [emit_mark s mark]

/-- The value of a number depends on where it stands by no more than its mark. -/
theorem numeral_of_numberValue {mark : Nat} {value : Value} (s : Scanner) (read : numberValue text mark = .ok value) :
    ∃ again : Value, s.numeral text = ((s.passing text).add ⟨.number, text, again, s.position⟩, none) ∧
      again.unmarked = value.unmarked := by
  obtain ⟨again, found, same⟩ : ∃ again, numberValue text s.offset = .ok again ∧ again.unmarked = value.unmarked := by
    unfold numberValue at read ⊢
    split at read
    · next digits =>
      rw [if_pos digits]
      exact ⟨value, read, rfl⟩
    · next other =>
      rw [if_neg other]
      split at read
      · exact ⟨value, read, rfl⟩
      · cases read
        exact ⟨_, rfl, rfl⟩
  exact ⟨again, by rw [numeral, found], same⟩

private theorem endsNumber_of_apart {tail : Text} (shape : tail = [] ∨ IsExponent tail)
    (apart : ∀ c ∈ more.head?, c.separatesTokens) : EndsNumber tail more := by
  have stops : ∀ c ∈ more.head?, c.isDigitOrPoint = false := fun c first =>
    (CodePoint.of_separates (apart c first)).1
  rcases shape with rfl | shape
  · exact .bare stops fun c first => (CodePoint.of_separates (apart c first)).2.2.1
  · refine .exponent shape fun c first => ?_
    have neither := stops c first
    simp only [CodePoint.isDigitOrPoint, Bool.or_eq_false_iff] at neither
    exact neither.1

/-- A mark with a blank or nothing behind it begins no number. -/
theorem startsNumber_of_apart (mark : kind.mark? = some c) (apart : ∀ c ∈ more.head?, c.separatesTokens) :
    startsNumber (c :: more) = false := by
  have noDigit : c.isDigit = false := by cases kind <;> cases mark <;> rfl
  cases more with
  | nil => simp [startsNumber, noDigit]
  | cons d more =>
    have neither := (CodePoint.of_separates (apart d rfl)).1
    simp only [CodePoint.isDigitOrPoint, Bool.or_eq_false_iff] at neither
    simp [startsNumber, noDigit, neither.1]

/-- A sound token is made again of its text, wherever it stands with a blank or nothing behind it. -/
theorem exists_scan_of_isSound (sound : token.IsSound) (front : s.rest = token.text ++ more)
    (apart : ∀ c ∈ more.head?, c.separatesTokens) :
    ∃ again : Token, s.scan = ((s.passing token.text).add again, none) ∧ again.content = token.content := by
  obtain ⟨kind, text, value, position⟩ := token
  obtain ⟨written, shape, means⟩ := sound
  dsimp only at written shape means front
  have ofMark {c : CodePoint} (mark : kind.mark? = some c) (none_ : value = .null) :
      ∃ again : Token, s.scan = ((s.passing text).add again, none) ∧
        again.content = Token.content ⟨kind, text, value, position⟩ := by
    obtain rfl := (TokenKind.isShape_of_mark mark).mp shape
    subst none_
    exact ⟨_, scan_of_mark mark (startsNumber_of_apart mark apart) front, rfl⟩
  cases kind with
  | number =>
    obtain ⟨_, read⟩ := means
    obtain ⟨again, made, same⟩ := numeral_of_numberValue s read
    obtain ⟨body, tail, rfl, starts, all, ending⟩ := shape
    rw [List.append_assoc] at front
    have scanned := scan_of_number starts all (endsNumber_of_apart ending apart) front
    exact ⟨_, scanned.trans made, congrArg (TokenKind.number, body ++ tail, ·) same⟩
  | string =>
    obtain ⟨quote, quotes, pieces, rfl, rfl⟩ := means
    exact ⟨_, scan_of_literal quotes pieces front, rfl⟩
  | identifier =>
    subst means
    exact ⟨_, scan_of_name shape (fun c first => (CodePoint.of_separates (apart c first)).2.1) front, rfl⟩
  | endOfInput => exact absurd rfl written
  | _ => exact ofMark rfl means

/-- Tokens that are written with blanks between them are made again, one step for each token and each blank. -/
theorem exists_runs_of_spread (spread : Spread tokens text) (sound : ∀ token ∈ tokens, token.IsSound)
    (front : s.rest = text) :
    ∃ last again, s.Runs last ∧ last.rest = [] ∧ last.tokens = s.tokens ++ again ∧
      again.map Token.content = tokens.map Token.content := by
  induction spread generalizing s with
  | done => exact ⟨s, [], .refl, front, (List.append_nil _).symm, rfl⟩
  | @blank tokens c rest separates _ hypothesis =>
    have moves : s.Moves (s.passing [c]) := ⟨by rw [front]; exact List.cons_ne_nil _ _, scan_blank front separates⟩
    have behind : (s.passing [c]).rest = rest := rest_passing front
    obtain ⟨last, again, runs, end_, made, same⟩ := hypothesis sound behind
    exact ⟨last, again, runs.head moves, end_, by rw [made, tokens_passing], same⟩
  | @token token tokens rest apart _ hypothesis =>
    obtain ⟨first, others⟩ := List.forall_mem_cons.mp sound
    obtain ⟨new, scanned, also⟩ := exists_scan_of_isSound first front apart
    have some_ : s.rest ≠ [] := by
      rw [front]
      exact List.append_ne_nil_of_left_ne_nil (first.shape.ne_nil first.written) _
    have moves : s.Moves ((s.passing token.text).add new) := ⟨some_, scanned⟩
    have behind : ((s.passing token.text).add new).rest = rest := rest_passing front
    obtain ⟨last, again, runs, end_, made, same⟩ := hypothesis others behind
    refine ⟨last, new :: again, runs.head moves, end_, ?_, ?_⟩
    · rw [made, tokens_add, tokens_passing, List.append_assoc]
      rfl
    · rw [List.map_cons, List.map_cons, also, same]

end Scanner

section

variable {source text : Text} {tokens : List Token}

private theorem exists_body_of_tokenize (made : tokenize source = .ok tokens) :
    ∃ body place, tokens = body ++ [⟨.endOfInput, [], .null, place⟩] ∧ ∀ token ∈ body, token.IsSound := by
  obtain ⟨last, runs, _, rfl⟩ := exists_runs_of_tokenize made
  refine ⟨last.tokens, _, rfl, fun token member => ?_⟩
  obtain ⟨earlier, later, split⟩ := List.append_of_mem member
  obtain ⟨_, _, _, _, makes⟩ := Scanner.Runs.exists_makes runs split
  exact ⟨makes.written, makes.shape, makes.means⟩

private theorem spread_join (tokens : List Token) :
    Spread tokens (Text.join (Text.of " ") (tokens.map Token.text)) := by
  have space : (CodePoint.ofChar ' ').separatesTokens := rfl
  induction tokens with
  | nil => exact .done
  | cons token tokens hypothesis =>
    cases tokens with
    | nil =>
      have alone : Spread [token] (token.text ++ []) := .token nofun .done
      rw [List.append_nil] at alone
      exact alone
    | cons next tokens =>
      have whole : Text.join (Text.of " ") ((token :: next :: tokens).map Token.text) =
          token.text ++ CodePoint.ofChar ' ' :: Text.join (Text.of " ") ((next :: tokens).map Token.text) :=
        List.append_assoc _ _ _
      rw [whole]
      exact .token (by rintro c ⟨⟩; exact space) (.blank space hypothesis)

/-- The tokens of a source are made again of any text in which theirs stand in the same order with blanks between
them, and so of their texts with a space between neighbours: their kinds, texts and values are the same. -/
theorem tokenize_respaced (made : tokenize source = .ok tokens) :
    (∃ again, tokenize (respaced tokens) = .ok again ∧ again.map Token.content = tokens.map Token.content) ∧
    ∀ text, Spread (tokens.filter (·.kind ≠ .endOfInput)) text →
      ∃ again, tokenize text = .ok again ∧ again.map Token.content = tokens.map Token.content := by
  obtain ⟨body, place, rfl, sound⟩ := exists_body_of_tokenize made
  have written : (body ++ [(⟨.endOfInput, [], .null, place⟩ : Token)]).filter (·.kind ≠ .endOfInput) = body := by
    have all : body.filter (·.kind ≠ .endOfInput) = body :=
      List.filter_eq_self.mpr fun token member => by simpa using (sound token member).written
    rw [List.filter_append, all]
    exact List.append_nil body
  have ofSpread (text : Text) (spread : Spread body text) : ∃ again, tokenize text = .ok again ∧
      again.map Token.content = (body ++ [(⟨.endOfInput, [], .null, place⟩ : Token)]).map Token.content := by
    obtain ⟨last, again, runs, end_, read, same⟩ :=
      Scanner.exists_runs_of_spread (s := Scanner.start text) spread sound rfl
    refine ⟨_, tokenize_of_runs runs end_, ?_⟩
    obtain rfl : last.tokens = again := read
    rw [List.map_append, List.map_append, same]
    rfl
  rw [respaced, written]
  exact ⟨ofSpread _ (spread_join body), ofSpread⟩

/-- A number that is none, a name right behind it, and a string that no quote ends. -/
theorem respaced_without_blank :
    let tokens : List Token := [⟨.number, Text.of "1.2.3", .float (.nan 0), ⟨1, 1⟩⟩,
      ⟨.identifier, Text.of "x", .null, ⟨1, 6⟩⟩, ⟨.endOfInput, [], .null, ⟨1, 9⟩⟩]
    tokenize (Text.of "1.2.3x'a") = .ok tokens ∧ respaced tokens = Text.of "1.2.3 x" ∧
      ∃ again, tokenize (Text.of "1.2.3 x") = .ok again ∧ again.map Token.content = tokens.map Token.content := by
  intro tokens
  have made : tokenize (Text.of "1.2.3x'a") = .ok tokens := by decide +kernel
  exact ⟨made, rfl, (tokenize_respaced made).1⟩

end

end GuardedExpr

import GuardedExpr.Token.Lexeme

/-!
The scanner goes through a source once, from left to right, and keeps the line and column of the place it
has reached. When it fails it stays where the failure was found, with the tokens made so far.
-/

namespace GuardedExpr

structure Scanner where
  source : Text
  offset : Nat
  line : Nat
  column : Nat
  produced : List Token

namespace Scanner

def start (source : Text) : Scanner :=
  ⟨source, 0, 1, 1, []⟩

def rest (s : Scanner) : Text :=
  s.source.drop s.offset

def tokens (s : Scanner) : List Token :=
  s.produced.reverse

def position (s : Scanner) : Position :=
  ⟨s.line, s.column⟩

def step (s : Scanner) (c : CodePoint) : Scanner :=
  if c = '\n' then { s with line := s.line + 1, column := 1 } else { s with column := s.column + 1 }

def passing (s : Scanner) (lexeme : Text) : Scanner :=
  { lexeme.foldl step s with offset := s.offset + lexeme.length }

theorem source_foldl_step (s : Scanner) (lexeme : Text) : (lexeme.foldl step s).source = s.source := by
  induction lexeme generalizing s with
  | nil => rfl
  | cons c rest ih =>
    rw [List.foldl_cons, ih]
    unfold step
    split <;> rfl

theorem source_passing (s : Scanner) (lexeme : Text) : (s.passing lexeme).source = s.source :=
  source_foldl_step s lexeme

theorem offset_passing (s : Scanner) (lexeme : Text) :
    (s.passing lexeme).offset = s.offset + lexeme.length :=
  rfl

/-- Skips a number of characters. The offset moves on even where none are left. -/
def skip (s : Scanner) (count : Nat) : Scanner :=
  { s.passing (s.rest.take count) with offset := s.offset + count }

/-- Reads a number of characters, as far as there are any. There is no way back. -/
def advance (s : Scanner) (count : Int) : Except Error (Text × Scanner) :=
  if count < 0 then .error (.fault (.negativeStep count))
  else .ok (s.rest.take count.toNat, s.skip count.toNat)

/-- The character at a distance from the place reached, U+0000 behind the end. Distances before the
beginning count from the end. -/
def peek (s : Scanner) (distance : Int) : Except Error CodePoint :=
  let index : Int := s.offset + distance
  let length : Int := s.source.length
  if length ≤ index then .ok (CodePoint.ofNat 0)
  else match s.source[(if index < 0 then index + length else index).toNat]? with
    | some c => if index + length < 0 then .error (.fault .outOfRange) else .ok c
    | none => .error (.fault .outOfRange)

def add (s : Scanner) (token : Token) : Scanner :=
  { s with produced := token :: s.produced }

def emit (s : Scanner) (kind : TokenKind) (text : Text) : Scanner :=
  s.add ⟨kind, text, .null, ⟨s.line, (s.column : Int) - text.length⟩⟩

abbrev Result := Scanner × Option Error

def numeral (s : Scanner) (lexeme : Text) : Result :=
  match Lexeme.numberValue lexeme s.offset with
  | .ok value => ((s.passing lexeme).add ⟨.number, lexeme, value, s.position⟩, none)
  | .error failure => (s.passing lexeme, some failure)

def number (s : Scanner) : Result :=
  let body := s.rest.takeWhile CodePoint.isDigitOrPoint
  match Lexeme.exponent (s.rest.dropWhile CodePoint.isDigitOrPoint) with
  | .absent => s.numeral body
  | .present lexeme => s.numeral (body ++ lexeme)
  | .malformed consumed => (s.passing (body ++ consumed), some (.invalidExponent s.position))

/-- Reads a string. Without a closing quote it reaches to the end and makes no token. -/
def string (s : Scanner) : Result :=
  match s.rest with
  | [] => (s.skip 1, none)
  | quote :: rest =>
    match Lexeme.body quote rest with
    | .closed lexeme value =>
      let whole := quote :: lexeme
      ((s.passing whole).add ⟨.string, whole, .text value, s.position⟩, none)
    | .unterminated => (s.passing (quote :: rest), none)
    | .badEscape before =>
      let place := s.passing (quote :: before)
      (place.passing [CodePoint.ofChar '\\'], some (.invalidEscape place.position))

def name (s : Scanner) : Scanner :=
  let lexeme := s.rest.takeWhile CodePoint.continuesName
  (s.passing lexeme).add ⟨.identifier, lexeme, .null, s.position⟩

/-- Whether a number begins here: a digit, or a point with a digit behind it. -/
def startsNumber : Text → Bool
  | c :: rest => c.isDigit || (c = '.' && (rest.head?.map CodePoint.isDigit).getD false)
  | [] => false

def scan (s : Scanner) : Result :=
  match s.rest with
  | [] => (s, some (.unexpectedCharacter (CodePoint.ofNat 0) s.position))
  | c :: _ =>
    if startsNumber s.rest then s.number
    else if c = '"' || c = '\x27' then s.string
    else match TokenKind.ofMark? c with
      | some kind => ((s.passing [c]).emit kind [c], none)
      | none =>
        if c.startsName then (s.name, none)
        else if c.separatesTokens then (s.passing [c], none)
        else (s, some (.unexpectedCharacter c s.position))

/-- Reads tokens until nothing is left or one fails. Each one reads a character at least, so as many
rounds as there are characters suffice. -/
def scanAll : Nat → Scanner → Result
  | 0, s => (s, none)
  | rounds + 1, s =>
    if s.offset < s.source.length then
      match s.scan with
      | (next, none) => scanAll rounds next
      | failed => failed
    else (s, none)

def finish (s : Scanner) : Result :=
  match scanAll (s.source.length - s.offset) s with
  | (last, none) => (last.add ⟨.endOfInput, [], .null, last.position⟩, none)
  | failed => failed

end Scanner

def tokenize (source : Text) : Except Error (List Token) :=
  match (Scanner.start source).finish with
  | (last, none) => .ok last.tokens
  | (_, some failure) => .error failure

end GuardedExpr

import GuardedExpr.Json.Basic
import GuardedExpr.Table

/-!
Reading JSON. A failure says what was expected and how much of the document was left, from which its place
follows.
-/

namespace GuardedExpr.Json

inductive Problem where
  | byteOrderMark
  | extraData
  | noValue
  | noName
  | noColon
  | noComma
  | unterminatedString
  | controlCharacter
  | badEscape
  | badNumberedEscape
  /-- A whole number is too long to be converted. -/
  | tooManyDigits (count : Nat)
  deriving DecidableEq

structure Failure where
  problem : Problem
  left : Nat
  deriving DecidableEq

def failAt {α : Type} (problem : Problem) (rest : Text) : Except Failure α :=
  .error ⟨problem, rest.length⟩

def isBlank (c : CodePoint) : Bool :=
  c = ' ' || c = '\t' || c = '\n' || c = '\r'

def skipBlanks (t : Text) : Text :=
  t.dropWhile isBlank

def simpleEscape? (c : CodePoint) : Option CodePoint :=
  if c = '"' || c = '\\' || c = '/' then some c
  else if c = 'b' then some (CodePoint.ofNat 0x08)
  else if c = 'f' then some (CodePoint.ofNat 0x0C)
  else if c = 'n' then some (CodePoint.ofChar '\n')
  else if c = 'r' then some (CodePoint.ofChar '\r')
  else if c = 't' then some (CodePoint.ofChar '\t')
  else none

def paired? (high low : Nat) : Option CodePoint :=
  if 0xDC00 ≤ low && low ≤ 0xDFFF then
    some (CodePoint.ofNat (0x10000 + (high - 0xD800) * 0x400 + (low - 0xDC00)))
  else none

def prepend (c : CodePoint) : Text × Text → Text × Text
  | (read, rest) => (c :: read, rest)

/-- Reads a string behind its opening quote; `opened` is what was left in front of that quote. A high
surrogate is joined with a low one in the escape behind it. -/
def stringBody (opened : Nat) : Text → Except Failure (Text × Text)
  | [] => .error ⟨.unterminatedString, opened⟩
  | c :: rest =>
    if c = '"' then .ok ([], rest)
    else if c = '\\' then
      match rest with
      | [] => .error ⟨.unterminatedString, opened⟩
      | letter :: after =>
        if letter = 'u' then
          match after with
          | d₁ :: d₂ :: d₃ :: d₄ :: next =>
            match Numeral.ofHex? [d₁, d₂, d₃, d₄] with
            | none => failAt .badNumberedEscape rest
            | some high =>
              if next.isEmpty then failAt .badNumberedEscape rest
              else if 0xD800 ≤ high && high ≤ 0xDBFF && 6 < next.length then
                match next with
                | b :: u :: e₁ :: e₂ :: e₃ :: e₄ :: behind =>
                  if b = '\\' && u = 'u' then
                    match Numeral.ofHex? [e₁, e₂, e₃, e₄] with
                    | none => .error ⟨.badNumberedEscape, behind.length + 5⟩
                    | some low => match paired? high low with
                      | some joined => (stringBody opened behind).map (prepend joined)
                      | none =>
                        (stringBody opened (b :: u :: e₁ :: e₂ :: e₃ :: e₄ :: behind)).map
                          (prepend (CodePoint.ofNat high))
                  else
                    (stringBody opened (b :: u :: e₁ :: e₂ :: e₃ :: e₄ :: behind)).map
                      (prepend (CodePoint.ofNat high))
                | _ => failAt .badNumberedEscape rest
              else (stringBody opened next).map (prepend (CodePoint.ofNat high))
          | _ => failAt .badNumberedEscape rest
        else match simpleEscape? letter with
          | some meant => (stringBody opened after).map (prepend meant)
          | none => failAt .badEscape (c :: rest)
    else if c.val < 0x20 then failAt .controlCharacter (c :: rest)
    else (stringBody opened rest).map (prepend c)

def digits (t : Text) : Text :=
  t.takeWhile CodePoint.isDigit

/-- The whole part of a number: zero, or digits that do not begin with zero. -/
def wholePart (t : Text) : Text :=
  match t with
  | c :: _ => if c = '0' then [c] else digits t
  | [] => []

def fractionPart : Text → Text
  | c :: rest => if c = '.' && !(digits rest).isEmpty then c :: digits rest else []
  | [] => []

def exponentPart : Text → Text
  | c :: rest =>
    let sign := match rest with
      | s :: _ => if s = '+' || s = '-' then [s] else []
      | [] => []
    let tail := digits (rest.drop sign.length)
    if (c = 'e' || c = 'E') && !tail.isEmpty then c :: sign ++ tail else []
  | [] => []

def number (t : Text) : Except Failure (Json × Text) :=
  let negative := t.head? = some (CodePoint.ofChar '-')
  let unsigned := if negative then t.drop 1 else t
  let whole := wholePart unsigned
  let fraction := fractionPart (unsigned.drop whole.length)
  let exponent := exponentPart (unsigned.drop (whole.length + fraction.length))
  if whole.isEmpty then failAt .noValue t
  else if fraction.isEmpty && exponent.isEmpty then
    if whole.length > Numeral.digitLimit then failAt (.tooManyDigits whole.length) t
    else
      let magnitude : Int := Numeral.ofDigits whole
      .ok (.int (if negative then -magnitude else magnitude), unsigned.drop whole.length)
  else
    let magnitude := (Double.ofText? (whole ++ fraction ++ exponent)).getD Double.zero
    .ok (.float (if negative then magnitude.negate else magnitude),
      unsigned.drop (whole.length + fraction.length + exponent.length))

/-- The documents that are words, with the words. The values that are no numbers are all the same one. -/
def words : List (Text × Json) :=
  [(Text.of "null", .null), (Text.of "true", .bool true), (Text.of "false", .bool false),
    (Text.of "NaN", .float (.nan 0)), (Text.of "Infinity", .float (.infinite false)),
    (Text.of "-Infinity", .float (.infinite true))]

def scalar (t : Text) : Except Failure (Json × Text) :=
  match words.find? fun word => Text.startsWith word.1 t with
  | some word => .ok (word.2, t.drop word.1.length)
  | none => number t

mutual

def value : Nat → Text → Except Failure (Json × Text)
  | 0, t => failAt .noValue t
  | fuel + 1, t => match t with
    | [] => failAt .noValue t
    | c :: rest =>
      if c = '"' then do
        let (read, rest) ← stringBody t.length rest
        return (.string read, rest)
      else if c = '[' then do
        match skipBlanks rest with
        | [] => failAt .noValue []
        | next :: after =>
          if next = ']' then return (.array [], after)
          else
            let (read, rest) ← items fuel (next :: after)
            return (.array read, rest)
      else if c = '\x7b' then do
        match skipBlanks rest with
        | [] => failAt .noName []
        | next :: after =>
          if next = '\x7d' then return (.object [], after)
          else
            let (read, rest) ← members fuel [] (next :: after)
            return (.object read, rest)
      else scalar t

def items : Nat → Text → Except Failure (List Json × Text)
  | 0, t => failAt .noValue t
  | fuel + 1, t => do
    let (first, rest) ← value fuel t
    match skipBlanks rest with
    | [] => failAt .noComma []
    | next :: after =>
      if next = ']' then return ([first], after)
      else if next = ',' then
        let (others, rest) ← items fuel (skipBlanks after)
        return (first :: others, rest)
      else failAt .noComma (next :: after)

def members : Nat → Table Text Json → Text → Except Failure (List (Text × Json) × Text)
  | 0, _, t => failAt .noName t
  | fuel + 1, known, t => match t with
    | [] => failAt .noName []
    | quote :: rest =>
      if quote = '"' then do
        let (name, rest) ← stringBody t.length rest
        match skipBlanks rest with
        | [] => failAt .noColon []
        | next :: after =>
          if next = ':' then
            let (found, rest) ← value fuel (skipBlanks after)
            let known := Table.insert name found known
            match skipBlanks rest with
            | [] => failAt .noComma []
            | next :: after =>
              if next = '\x7d' then return (known, after)
              else if next = ',' then members fuel known (skipBlanks after)
              else failAt .noComma (next :: after)
          else failAt .noColon (next :: after)
      else failAt .noName t

end

def read (t : Text) : Except Failure Json :=
  if t.head? = some (CodePoint.ofNat 0xFEFF) then failAt .byteOrderMark t
  else match value (2 * t.length + 2) (skipBlanks t) with
    | .error failure => .error failure
    | .ok (document, rest) => match skipBlanks rest with
      | [] => .ok document
      | extra => failAt .extraData extra

def Problem.message : Problem → Text
  | .byteOrderMark => Text.of "Unexpected UTF-8 BOM (decode using utf-8-sig)"
  | .extraData => Text.of "Extra data"
  | .noValue => Text.of "Expecting value"
  | .noName => Text.of "Expecting property name enclosed in double quotes"
  | .noColon => Text.of "Expecting ':' delimiter"
  | .noComma => Text.of "Expecting ',' delimiter"
  | .unterminatedString => Text.of "Unterminated string starting at"
  | .controlCharacter => Text.of "Invalid control character at"
  | .badEscape => Text.of "Invalid \\escape"
  | .badNumberedEscape => Text.of "Invalid \\uXXXX escape"
  | .tooManyDigits _ => []

def Failure.message (document : Text) (failure : Failure) : Text :=
  let offset := document.length - failure.left
  let before := document.take offset
  let column := (before.reverse.takeWhile fun c => c != CodePoint.ofChar '\n').length + 1
  failure.problem.message ++ Text.of ": line " ++
    Numeral.decimal ((before.count (CodePoint.ofChar '\n')) + 1) ++ Text.of " column " ++
    Numeral.decimal column ++ Text.of " (char " ++ Numeral.decimal offset ++ Text.of ")"

end GuardedExpr.Json

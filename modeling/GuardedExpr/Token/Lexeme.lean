import GuardedExpr.Double.Numeral
import GuardedExpr.Token.Basic

/-!
The shapes of numbers, strings and names at the front of a text. What they consume is said here; where it
stands and what becomes of it is up to the scanner.
-/

namespace GuardedExpr

namespace CodePoint

def startsName (c : CodePoint) : Bool :=
  c.isLetter || c = '_' || c = '$'

def continuesName (c : CodePoint) : Bool :=
  c.startsName || c.isDigit

def separatesTokens (c : CodePoint) : Bool :=
  c = ' ' || c = '\r' || c = '\t' || c = '\n' || c.val = 0x0B || c.val = 0xA0

def isDigitOrPoint (c : CodePoint) : Bool :=
  c.isDigit || c = '.'

end CodePoint

namespace Lexeme

inductive Exponent where
  | absent
  /-- Marker and sign without a digit behind them. -/
  | malformed (consumed : Text)
  | present (lexeme : Text)
  deriving DecidableEq

def sign : Text → Text
  | c :: _ => if c = '+' || c = '-' then [c] else []
  | [] => []

def exponent : Text → Exponent
  | c :: rest =>
    if Decimal.isMarker c then
      let signed := sign rest
      let digits := (rest.drop signed.length).takeWhile CodePoint.isDigit
      if digits.isEmpty then .malformed (c :: signed) else .present (c :: signed ++ digits)
    else .absent
  | [] => .absent

/-- The value of a number. Digits alone make a whole number, and what is no numeral at all makes a value
that is no number, under the given mark. -/
def numberValue (lexeme : Text) (mark : Nat) : Except Error Value :=
  if !lexeme.isEmpty && lexeme.all CodePoint.isDigit then
    if lexeme.length > Numeral.digitLimit then .error (.fault (.tooManyDigits lexeme.length))
    else .ok (.int (Numeral.ofDigits lexeme))
  else match Double.ofText? lexeme with
    | some x => .ok (.float x)
    | none => .ok (.float (.nan mark))

/-- What a backslash makes of the next character. Characters without a meaning of their own are kept. -/
def unescaped (c : CodePoint) : CodePoint :=
  if c = 'n' then CodePoint.ofChar '\n'
  else if c = 'f' then CodePoint.ofNat 0x0C
  else if c = 'r' then CodePoint.ofChar '\r'
  else if c = 't' then CodePoint.ofChar '\t'
  else if c = 'v' then CodePoint.ofNat 0x0B
  else c

def numbered? (digits : Text) : Option CodePoint :=
  (Numeral.ofHex? digits).map CodePoint.ofNat

inductive Body where
  /-- Up to the closing quote, with the characters it stands for. -/
  | closed (lexeme value : Text)
  /-- There is no closing quote. -/
  | unterminated
  /-- A numbered escape lacks digits; given is what stands before its backslash. -/
  | badEscape (before : Text)
  deriving DecidableEq

def Body.after (lexeme value : Text) : Body → Body
  | .closed more moreValue => .closed (lexeme ++ more) (value ++ moreValue)
  | .unterminated => .unterminated
  | .badEscape before => .badEscape (lexeme ++ before)

def body (quote : CodePoint) : Text → Body
  | [] => .unterminated
  | c :: rest =>
    if c = '\\' then
      match rest with
      | [] => .unterminated
      | escaped :: rest =>
        if escaped = 'u' then
          match rest with
          | d₁ :: d₂ :: d₃ :: d₄ :: rest =>
            match numbered? [d₁, d₂, d₃, d₄] with
            | some point => (body quote rest).after [c, escaped, d₁, d₂, d₃, d₄] [point]
            | none => .badEscape []
          | _ => .badEscape []
        else (body quote rest).after [c, escaped] [unescaped escaped]
    else if c = quote then .closed [c] []
    else (body quote rest).after [c] [c]

end Lexeme

end GuardedExpr

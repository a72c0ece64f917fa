import GuardedExpr.Error
import GuardedExpr.Value

/-!
Tokens of the expression language.
-/

namespace GuardedExpr

inductive TokenKind where
  | number
  | string
  | identifier
  | leftBracket
  | rightBracket
  | leftBrace
  | rightBrace
  | leftParen
  | rightParen
  | comma
  | colon
  | dot
  | assign
  | endOfInput
  deriving DecidableEq

def TokenKind.name : TokenKind → Text
  | .number => Text.of "NUMBER"
  | .string => Text.of "STRING"
  | .identifier => Text.of "IDENT"
  | .leftBracket => Text.of "LSQB"
  | .rightBracket => Text.of "RSQB"
  | .leftBrace => Text.of "LBRACE"
  | .rightBrace => Text.of "RBRACE"
  | .leftParen => Text.of "LPAR"
  | .rightParen => Text.of "RPAR"
  | .comma => Text.of "COMMA"
  | .colon => Text.of "COLON"
  | .dot => Text.of "DOT"
  | .assign => Text.of "ASSIGN"
  | .endOfInput => Text.of "EOF"

def TokenKind.ofMark? (c : CodePoint) : Option TokenKind :=
  if c = '[' then some .leftBracket
  else if c = ']' then some .rightBracket
  else if c = ',' then some .comma
  else if c = '\x7b' then some .leftBrace
  else if c = '\x7d' then some .rightBrace
  else if c = ':' then some .colon
  else if c = '.' then some .dot
  else if c = '(' then some .leftParen
  else if c = ')' then some .rightParen
  else if c = '=' then some .assign
  else none

/-- A token with the text it was written as and, for numbers and strings, the value it stands for. -/
structure Token where
  kind : TokenKind
  text : Text
  value : Value
  position : Position
  deriving DecidableEq

namespace Token

def isIdentifier (token : Token) : Bool :=
  token.kind = .identifier

def display (token : Token) : Text :=
  Text.of "Tok(" ++ token.kind.name ++ Text.of ", " ++ token.text.quoted ++ Text.of ", " ++
    Numeral.decimal token.position.line ++ Text.of ":" ++ Numeral.signed token.position.column ++
    Text.of ")"

/-- The token with the marks of its value moved, so that values of different sources stay apart. -/
def remark (shift : Nat) (token : Token) : Token :=
  match token.value with
  | .float (.nan mark) => { token with value := .float (.nan (shift + mark)) }
  | _ => token

end Token

end GuardedExpr

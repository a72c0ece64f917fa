import GuardedExpr.Node.Basic
import GuardedExpr.Token.Scanner

/-!
The grammar of expressions, read by recursive descent with one token of lookahead.

    program    := assignment
    assignment := primary ('=' primary)?
    primary    := (reserved | name | literal | array | object) suffix*
    suffix     := '.' name | '[' assignment ']' | '(' arguments ')'
    array      := '[' (assignment (',' assignment)* ','?)? ']'
    object     := '{' (key ':' assignment (',' key ':' assignment)*)? '}'
    arguments  := (assignment (',' assignment)*)?
    key        := name | literal
-/

namespace GuardedExpr

/-- A step of the reader: it takes tokens from the front, and keeps what it has taken when it fails. -/
abbrev Reader (α : Type) := ExceptT Error (StateM (List Token)) α

def Node.ofReserved? (name : Text) : Option Node :=
  if name = Text.of "null" then some (.literal .null)
  else if name = Text.of "true" then some (.literal (.bool true))
  else if name = Text.of "false" then some (.literal (.bool false))
  else if name = Text.of "this" then some .this
  else if name = Text.of "$locals" then some .locals
  else none

namespace Reader

/-- The next token; behind the last one stands an end of input without a place. -/
def current : Reader Token := do
  match ← get with
  | token :: _ => return token
  | [] => return ⟨.endOfInput, [], .null, ⟨0, 0⟩⟩

def skip : Reader Unit :=
  modify List.tail

/-- The next token, if its text is one of those expected, or any where none are. -/
def peek (expected : List Text) : Reader (Option Token) := do
  let token ← current
  if token.kind = .endOfInput then return none
  else if expected.isEmpty || expected.contains token.text then return some token
  else return none

def expect (expected : List Text) : Reader (Option Token) := do
  match ← peek expected with
  | some token => skip; return some token
  | none => return none

def accept (mark : String) : Reader Bool := do
  return (← expect [Text.of mark]).isSome

def sees (mark : String) : Reader Bool := do
  return (← peek [Text.of mark]).isSome

def failAt {α : Type} (token : Token) (expected : Text) : Reader α :=
  throw (.unexpectedToken expected token.position)

def consume (expected : Text) : Reader Token := do
  match ← expect [expected] with
  | some token => return token
  | none => failAt (← current) expected

def identifier : Reader Node := do
  let token ← current
  if token.isIdentifier then
    skip
    return .identifier token.text
  else failAt token (Text.of "identifier")

def literal : Reader Node := do
  let token ← current
  if token.kind = .number || token.kind = .string then
    skip
    return .literal token.value
  else failAt token (Text.of "primary expression")

def key : Reader Node := do
  if (← current).isIdentifier then identifier else literal

def atom : Reader Node := do
  let token ← current
  if token.isIdentifier then
    match Node.ofReserved? token.text with
    | some node => skip; return node
    | none => identifier
  else literal

mutual

def assignment : Nat → Reader Node
  | 0 => throw (.fault .exhausted)
  | fuel + 1 => do
    let left ← primary fuel
    if ← accept "=" then return .assignment left (← primary fuel)
    else return left

def primary : Nat → Reader Node
  | 0 => throw (.fault .exhausted)
  | fuel + 1 => do
    if ← accept "[" then suffixes fuel (← array fuel)
    else if ← accept "\x7b" then suffixes fuel (← object fuel)
    else suffixes fuel (← atom)

def suffixes : Nat → Node → Reader Node
  | 0, _ => throw (.fault .exhausted)
  | fuel + 1, subject => do
    if ← accept "." then
      suffixes fuel (.member subject (← identifier) false)
    else if ← accept "[" then
      let property ← assignment fuel
      let _ ← consume (Text.of "]")
      suffixes fuel (.member subject property true)
    else if ← accept "(" then
      let items ← arguments fuel
      let _ ← consume (Text.of ")")
      suffixes fuel (.call subject items)
    else return subject

def array : Nat → Reader Node
  | 0 => throw (.fault .exhausted)
  | fuel + 1 => do
    let items ← elements fuel
    let _ ← consume (Text.of "]")
    return .array items

/-- Reads the elements of an array; a comma may stand behind the last one. -/
def elements : Nat → Reader (List Node)
  | 0 => throw (.fault .exhausted)
  | fuel + 1 => do
    if ← sees "]" then return []
    else
      let element ← assignment fuel
      if ← accept "," then return element :: (← elements fuel)
      else return [element]

def object : Nat → Reader Node
  | 0 => throw (.fault .exhausted)
  | fuel + 1 => do
    if ← accept "\x7d" then return .object []
    else
      let items ← properties fuel
      let _ ← consume (Text.of "\x7d")
      return .object items

def properties : Nat → Reader (List Node)
  | 0 => throw (.fault .exhausted)
  | fuel + 1 => do
    let name ← key
    let _ ← consume (Text.of ":")
    let property := Node.property name (← assignment fuel)
    if ← accept "," then return property :: (← properties fuel)
    else return [property]

def arguments : Nat → Reader (List Node)
  | 0 => throw (.fault .exhausted)
  | fuel + 1 => do
    if ← sees ")" then return []
    else someArguments fuel

def someArguments : Nat → Reader (List Node)
  | 0 => throw (.fault .exhausted)
  | fuel + 1 => do
    let argument ← assignment fuel
    if ← accept "," then return argument :: (← someArguments fuel)
    else return [argument]

end

/-- A number of productions that no text of the given tokens needs. -/
def enough (tokens : List Token) : Nat :=
  4 * tokens.length + 8

def complete {α : Type} (production : Nat → Reader α) : Reader α := do
  production (enough (← get))

/-- Reads a program. A token behind it is an error where the reader is strict, and is left unread and
returned otherwise. -/
def program (strict : Bool) : Reader (Node × Option Token) := do
  let body ← complete assignment
  let leftover ← peek []
  match leftover with
  | some token =>
    if strict then failAt token (Text.of "end of expression")
    else return (.program body, some token)
  | none => return (.program body, none)

end Reader

def Node.ofTokens (strict : Bool) (tokens : List Token) : Except Error (Node × Option Token) :=
  ((Reader.program strict).run.run tokens).1

end GuardedExpr

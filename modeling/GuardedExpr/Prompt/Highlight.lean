import GuardedExpr.Node.Grammar

/-!
Highlighting: a line is cut into fragments with styles that follow its tokens. Behind a lexical error the
rest of the line is shown as one error.
-/

namespace GuardedExpr.Highlight

inductive Group where
  | constant
  | number
  | string
  | name
  | function
  | mark
  | unstyled
  | error
  deriving DecidableEq

def Group.style : Group → Text
  | .constant => Text.of "ansicyan"
  | .number => Text.of "ansimagenta"
  | .string => Text.of "ansigreen"
  | .function => Text.of "bold ansiyellow"
  | .error => Text.of "bold ansired"
  | .name => []
  | .mark => []
  | .unstyled => []

structure Fragment where
  group : Group
  text : Text
  deriving DecidableEq

/-- The group of a token that stands before others. A name before a parenthesis is a function, unless it
is a reserved word. -/
def groupOf (token : Token) (others : List Token) : Group :=
  match token.kind with
  | .identifier =>
    if (Node.ofReserved? token.text).isSome then .constant
    else match others.head? with
      | some next => if next.kind = .leftParen then .function else .name
      | none => .name
  | .number => .number
  | .string => .string
  | .endOfInput => .unstyled
  | _ => .mark

def slice (line : Text) (first last : Nat) : Text :=
  (line.drop first).take (last - first)

def fragments (line : Text) : Nat → List Token → List Fragment
  | reached, [] => if reached < line.length then [⟨.unstyled, line.drop reached⟩] else []
  | reached, token :: tokens =>
    if token.kind = .endOfInput then fragments line reached tokens
    else
      let first := (token.position.column - 1).toNat
      let between :=
        if reached < first then [Fragment.mk .unstyled (slice line reached first)] else []
      between ++ ⟨groupOf token tokens, token.text⟩ :: fragments line (first + token.text.length) tokens

/-- Highlights a line. In front of an error the line is highlighted by itself, so that it gets shorter each
time. -/
def lineWithin : Nat → Text → Except Error (List Fragment)
  | 0, line => .ok [⟨.unstyled, line⟩]
  | fuel + 1, line =>
    if line.isEmpty then .ok [⟨.unstyled, []⟩]
    else match tokenize line with
      | .ok tokens => match fragments line 0 tokens with
        | [] => .ok [⟨.unstyled, line⟩]
        | found => .ok found
      | .error failure => match failure.position? with
        | none => .error failure
        | some position => do
          let clean := (position.column - 1).toNat
          let before ← if clean = 0 then pure [] else lineWithin fuel (line.take clean)
          return before ++ [⟨.error, line.drop clean⟩]

def line (t : Text) : Except Error (List Fragment) :=
  lineWithin (t.length + 1) t

/-- The line of a text with a number from zero; numbers below zero count from the end. -/
def lineAt? (t : Text) (number : Int) : Option Text :=
  let all := Text.lines t
  let index := if number < 0 then number + all.length else number
  if index < 0 then none else all[index.toNat]?

def lineOf (t : Text) (number : Int) : Except Error (List Fragment) :=
  line ((lineAt? t number).getD [])

end GuardedExpr.Highlight

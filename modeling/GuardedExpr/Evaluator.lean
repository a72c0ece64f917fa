import GuardedExpr.Code.Compile
import GuardedExpr.Code.Run
import GuardedExpr.Node.Grammar

/-!
Evaluators: expressions that have been compiled once and can be run any number of times, against locals and
a scope. An expression that names a place can also be assigned to.
-/

namespace GuardedExpr

structure Evaluator where
  text : Text
  tree : Node
  routine : Routine
  /-- The routine that assigns to the place the expression names, if it names one. -/
  assigner : Option Routine

inductive Notice where
  /-- A token behind the expression, and everything after it, was ignored. -/
  | ignored (token : Token)
  | compiled (text : Text) (statements slots : Nat)

namespace Notice

def message : Notice → Text
  | .ignored token =>
    Text.of "ignoring trailing input starting at " ++ token.text.quoted ++ Text.of " (line " ++
      Numeral.decimal token.position.line ++ Text.of ", col " ++
      Numeral.signed token.position.column ++ Text.of ")"
  | .compiled text statements slots =>
    Text.of "compiled " ++ text.quoted ++ Text.of ": " ++ Numeral.decimal statements ++
      Text.of " statements, " ++ Numeral.decimal slots ++ Text.of " temporaries"

def logLine (notice : Notice) : Text :=
  match notice with
  | .ignored _ => Text.of "WARNING ngexpr.parser_rd: " ++ notice.message
  | .compiled _ _ _ => Text.of "DEBUG ngexpr.compiler: " ++ notice.message

def isWarning : Notice → Bool
  | .ignored _ => true
  | .compiled _ _ _ => false

end Notice

namespace Evaluator

def ofTree (h : Heap) (tree : Node) (text : Text) : Except Error Evaluator :=
  match tree with
  | .program body => do
    let routine ← tree.routine h
    let assigner ←
      if body.isAssignable then some <$> (Node.program (.assignment body .parameter)).routine h
      else pure none
    return ⟨text, tree, routine, assigner⟩
  | _ => do
    let _ ← tree.routine h
    throw (.fault .misplacedExpression)

def notice (evaluator : Evaluator) : Notice :=
  .compiled evaluator.text evaluator.routine.statements.length evaluator.routine.slots

def parse (strict : Bool) (marks : Nat) (source : Text) : Except Error (Node × Option Token) := do
  Node.ofTokens strict ((← tokenize source).map (Token.remark marks))

def ofSource (h : Heap) (strict : Bool) (marks : Nat) (source : Text) :
    List Notice × Except Error Evaluator :=
  match parse strict marks source with
  | .error failure => ([], .error failure)
  | .ok (tree, leftover) =>
    let warnings := leftover.toList.map Notice.ignored
    match ofTree h tree source with
    | .error failure => (warnings, .error failure)
    | .ok evaluator => (warnings ++ [evaluator.notice], .ok evaluator)

def isLiteral (evaluator : Evaluator) : Bool :=
  match evaluator.tree with
  | .program body => body.isLiteral
  | _ => false

def isConstant (evaluator : Evaluator) : Bool :=
  evaluator.tree.isConstant

def isAssignable (evaluator : Evaluator) : Bool :=
  evaluator.assigner.isSome

def source (evaluator : Evaluator) : Text :=
  evaluator.routine.listing "l, s"

def assignSource (evaluator : Evaluator) : Option Text :=
  evaluator.assigner.map fun routine => routine.listing "l, s, v"

def display (evaluator : Evaluator) : Text :=
  Text.of "<Evaluator " ++ evaluator.text.quoted ++ Text.of ">"

variable {σ : Type}

def run (host : Host σ) (evaluator : Evaluator) (locals scope : Value) : Run σ Value :=
  evaluator.routine.run host locals scope .null

def assign (host : Host σ) (evaluator : Evaluator) (scope value locals : Value) : Run σ Value :=
  match evaluator.assigner with
  | some routine => routine.run host locals scope value
  | none => throw .invalidTarget

end Evaluator

end GuardedExpr

import GuardedExpr.Value

/-!
Code of evaluators. The body is a list of statements over numbered slots; inline code stands inside
statements and is run where it is used, each time that it is used. Nothing refers back to the tree that the
code was made from.
-/

namespace GuardedExpr

inductive Selector where
  | name (name : Text)
  | slot (index : Nat)
  deriving DecidableEq

inductive Code where
  | locals
  | scope
  /-- The value handed to an assignment from outside. -/
  | parameter
  | slot (index : Nat)
  /-- The locals where they own the name, else the scope. -/
  | owner (name : Text)
  /-- A value with its display in listings. -/
  | literal (value : Value) (shown : Text)
  | array (items : List Code)
  /-- As many keys as values. -/
  | object (keys : List (Value × Text)) (values : List Code)
  | member (container : Code) (selector : Selector)
  /-- A value that is checked to be no forbidden object. -/
  | guarded (code : Code)
  /-- Calls what a slot holds. -/
  | call (callee : Nat) (arguments : List Code)
  /-- Writes a member; the slot of the left side tells assignments apart. -/
  | store (site : Nat) (container : Code) (selector : Selector) (value : Code)

inductive Question where
  | has (container : Code) (name : Text)
  | holds (code : Code)

structure Condition where
  denied : Bool
  question : Question

inductive Action where
  | assign (slot : Nat) (code : Code)
  /-- Puts a new empty object into a member. -/
  | create (container : Code) (selector : Selector)

inductive Statement where
  | perform (action : Action)
  /-- Performs an action if all conditions hold. -/
  | guardedBy (conditions : List Condition) (action : Action)
  | checkObject (code : Code)
  | checkName (slot : Nat)
  | checkFunction (slot : Nat)
  /-- Sets the result. -/
  | result (code : Code)

structure Routine where
  statements : List Statement
  slots : Nat

namespace Code

mutual

/-- Whether running the code again repeats effects: calls and assignments do, and what holds them. -/
def isVolatile : Code → Bool
  | .call _ _ => true
  | .store _ _ _ _ => true
  | .guarded code => code.isVolatile
  | .array items => anyVolatile items
  | .object _ values => anyVolatile values
  | _ => false

def anyVolatile : List Code → Bool
  | [] => false
  | code :: codes => code.isVolatile || anyVolatile codes

end

end Code

end GuardedExpr

import GuardedExpr.Value

/-!
Expressions as trees.
-/

namespace GuardedExpr

/-- A node of the tree of an expression. The grammar produces only some of the trees: a literal there is a
scalar, an object holds properties with names or literals as keys, the name of a member without
brackets is an identifier, and a program stands at the root alone. -/
inductive Node where
  | program (body : Node)
  | literal (value : Value)
  | array (elements : List Node)
  | object (properties : List Node)
  | property (key value : Node)
  | identifier (name : Text)
  /-- The scope. -/
  | this
  | locals
  /-- A member; its key is computed where it stands in brackets. -/
  | member (object property : Node) (computed : Bool)
  | call (callee : Node) (arguments : List Node)
  | assignment (left right : Node)
  /-- The value that is handed to an assignment from outside. -/
  | parameter
  /-- Something else where an expression belongs. -/
  | foreign

instance : Inhabited Node := ⟨.foreign⟩

namespace Node

mutual

def isConstant : Node → Bool
  | .program body => body.isConstant
  | .literal _ => true
  | .array elements => areConstant elements
  | .object properties => haveConstantValues properties
  | _ => false

def areConstant : List Node → Bool
  | [] => true
  | element :: elements => element.isConstant && areConstant elements

def haveConstantValues : List Node → Bool
  | [] => true
  | .property _ value :: properties => value.isConstant && haveConstantValues properties
  | _ :: _ => false

end

def isLiteral : Node → Bool
  | .literal _ => true
  | .array _ => true
  | .object _ => true
  | _ => false

def isAssignable : Node → Bool
  | .identifier _ => true
  | .member _ _ _ => true
  | _ => false

end Node

end GuardedExpr

import GuardedExpr.Double.Basic
import GuardedExpr.Text.Basic

/-!
Values of the expression language: scalars, references to containers of the heap, and the callable
things that a host supplies without a container of their own.
-/

namespace GuardedExpr

/-- The number of a container in the heap. Two references are the same object if they are equal. -/
abbrev Ref := Nat

inductive Primitive where
  /-- Counts the items of a container or the characters of a text. -/
  | size
  /-- Reaches code or attributes by reflection, and is never called from an expression. -/
  | reflective (name : Text)
  /-- A reflective class, with the library it comes from. -/
  | reflectiveClass (library name : Text)
  deriving DecidableEq

inductive Constructor where
  /-- A class of classes. -/
  | ofClasses (name : Text)
  /-- The class of all objects. -/
  | ofObjects
  /-- Makes whole numbers. -/
  | ofIntegers
  /-- Makes text. -/
  | ofTexts
  /-- Makes mappings. -/
  | ofMappings
  deriving DecidableEq

inductive Scalar where
  | int (n : Int)
  | float (x : Double)
  | text (t : Text)
  deriving DecidableEq

/-- A method together with the receiver it was read from. Those of built-in classes have names. -/
inductive Method where
  | increment (counter : Ref)
  | ofList (list : Ref) (name : Text)
  | ofTuple (tuple : Ref) (name : Text)
  | ofScalar (scalar : Scalar) (name : Text)
  deriving DecidableEq

/-- What a host marks its classes as. -/
inductive HostMark where
  | global
  | node
  deriving DecidableEq

/-- A class that a host derives from a class of numbers or texts. -/
structure DerivedClass where
  name : Text
  mark : Option HostMark
  deriving DecidableEq

inductive Value where
  | null
  | bool (b : Bool)
  | int (n : Int)
  | float (x : Double)
  | text (t : Text)
  /-- A number or a text whose class is a derived one. -/
  | derived (cls : DerivedClass) (scalar : Scalar)
  | ref (r : Ref)
  | primitive (p : Primitive)
  | constructor (c : Constructor)
  | method (m : Method)
  deriving DecidableEq

instance : Inhabited Value := ⟨.null⟩

def Scalar.value : Scalar → Value
  | .int n => .int n
  | .float x => .float x
  | .text t => .text t

@[reducible]
def Value.plain : Value → Value
  | .derived _ scalar => scalar.value
  | v => v

def Constructor.name : Constructor → Text
  | .ofClasses name => name
  | .ofObjects => Text.of "object"
  | .ofIntegers => Text.of "int"
  | .ofTexts => Text.of "str"
  | .ofMappings => Text.of "dict"

def Method.name : Method → Text
  | .increment _ => Text.of "inc"
  | .ofList _ name => name
  | .ofTuple _ name => name
  | .ofScalar _ name => name

def Primitive.name : Primitive → Text
  | .size => Text.of "len"
  | .reflective name => name
  | .reflectiveClass _ name => name

end GuardedExpr

import GuardedExpr.Error
import GuardedExpr.Heap.Attribute

/-!
The kinds of values, which decide what is truthy and what may be used. Whether an object has the shape of
a document node depends on the truth of some of its members, and so on their kinds in turn; on a
container that is its own child this never comes to an end.
-/

namespace GuardedExpr

inductive Kind where
  | null
  | bool
  | number
  | text
  | array
  | mapping
  | callable
  | object
  /-- The global namespace of the host. -/
  | hostGlobal
  /-- A node of the host document. -/
  | hostNode
  /-- A class of classes. -/
  | constructor
  /-- The class of all objects. -/
  | objectConstructor
  /-- A function that works by reflection. -/
  | reflective
  deriving DecidableEq

def Primitive.isReflective : Primitive → Bool
  | .size => false
  | _ => true

def Value.isReflective : Value → Bool
  | .primitive p => p.isReflective
  | _ => false

def Scalar.truth : Scalar → Bool
  | .int n => n != 0
  | .float x => !x.isZero && !x.isNaN
  | .text t => !t.isEmpty

def Scalar.kind : Scalar → Kind
  | .text _ => .text
  | _ => .number

def Kind.truth : Kind → Value → Bool
  | .null, _ => false
  | .bool, .bool b => b
  | .number, .int n => n != 0
  | .number, .float x => !x.isZero && !x.isNaN
  | .text, .text t => !t.isEmpty
  | .number, .derived _ scalar => scalar.truth
  | .text, .derived _ scalar => scalar.truth
  | _, _ => true

/-- The kind that a cell is marked with, whatever it holds. -/
def Cell.mark? : Cell → Option Kind
  | .mapping .global _ => some .hostGlobal
  | .object .global _ => some .hostGlobal
  | .module _ => some .hostGlobal
  | .object .element _ => some .hostNode
  | _ => none

namespace Heap

/-- The kind of a value that its type and its marks decide alone. What a class is derived from is asked before
what the host has marked it as. -/
def markedKind? (h : Heap) : Value → Option Kind
  | .null => some .null
  | .bool _ => some .bool
  | .int _ => some .number
  | .float _ => some .number
  | .text _ => some .text
  | .derived _ scalar => some scalar.kind
  | .ref r => (h.cell r).mark?
  | .constructor .ofObjects => some .objectConstructor
  | .constructor (.ofClasses _) => some .constructor
  | .primitive p => if p.isReflective then some .reflective else none
  | _ => none

def plainKind (h : Heap) : Value → Kind
  | .ref r => match h.cell r with
    | .mapping _ _ => .mapping
    | .list _ => .array
    | .tuple _ => .array
    | .function _ _ _ => .callable
    | .userClass _ => .callable
    | _ => .object
  | _ => .callable

/-- A document node has children, and a node name or the three members of a node query. The truth of
each member is asked for only when the ones before leave the question open. -/
def nodeShape (truth : Text → Option Bool) : Option Bool := do
  if !(← truth (Text.of "children")) then return false
  if ← truth (Text.of "nodeName") then return true
  if !(← truth (Text.of "prop")) then return false
  if !(← truth (Text.of "attr")) then return false
  truth (Text.of "find")

def kindWithin (h : Heap) : Nat → Value → Option Kind
  | 0, _ => none
  | depth + 1, v =>
    match h.markedKind? v with
    | some kind => some kind
    | none =>
      if h.own v (Text.of "window") = v then some .hostGlobal
      else do
        let shaped ← nodeShape fun name => do
          let member := h.own v name
          return (← h.kindWithin depth member).truth member
        return if shaped then .hostNode else h.plainKind v

/-- The kind of a value. A chain of members that is longer than the heap has met a cell twice and has no
end. -/
def kind? (h : Heap) (v : Value) : Option Kind :=
  h.kindWithin (h.size + 2) v

def truth? (h : Heap) (v : Value) : Option Bool :=
  (h.kind? v).map fun kind => kind.truth v

def ended {α : Type} : Option α → Except Error α
  | some answer => .ok answer
  | none => .error (.fault .endless)

def classify (h : Heap) (v : Value) : Except Error Kind :=
  ended (h.kind? v)

def isTruthy (h : Heap) (v : Value) : Except Error Bool :=
  ended (h.truth? v)

def looksLikeNode (h : Heap) (v : Value) : Except Error Bool :=
  ended (nodeShape fun name => h.truth? (h.own v name))

def isCallable (h : Heap) : Value → Bool
  | .primitive _ => true
  | .constructor _ => true
  | .method _ => true
  | .ref r => match h.cell r with
    | .function _ _ _ => true
    | .userClass _ => true
    | _ => false
  | _ => false

end Heap

end GuardedExpr

import GuardedExpr.Guard
import GuardedExpr.Heap.Member
import GuardedExpr.Node.Basic

/-!
The direct reading of a tree, without code, slots or statements. It is defined for expressions that neither
call nor assign: a node is read from left to right, its parts before itself. Only the arrays and objects that
it builds are new on the heap.
-/

namespace GuardedExpr

/-- What a name stands for: the member of the locals where they own it, else the member of the scope where
there is one. -/
def Heap.resolve (h : Heap) (locals scope : Value) (name : Text) : Except Error Value := do
  match ← h.hasMember locals name with
  | true => h.getMember locals (.text name)
  | false => if ← h.isTruthy scope then h.getMember scope (.text name) else return .null

def Heap.memberOrNull (h : Heap) (container key : Value) : Except Error Value := do
  if ← h.isTruthy container then h.getMember container key else return .null

def Heap.guarded (h : Heap) (answer : Except Error Value) : Except Error Value := do
  let value ← answer
  Guard.object h value
  return value

/-- A part of a reading. Its heap is lost when it fails. -/
abbrev Reading (α : Type) := StateT Heap (Except Error) α

namespace Reading

def ask {α : Type} (question : Heap → Except Error α) : Reading α := do
  question (← get)

def alloc (cell : Cell) : Reading Value := do
  let (r, heap) := (← get).alloc cell
  set heap
  return .ref r

end Reading

namespace Node

mutual

def acts : Node → Bool
  | .program body => body.acts
  | .array elements => anyActs elements
  | .object properties => anyActs properties
  | .property key value => key.acts || value.acts
  | .member subject key _ => subject.acts || key.acts
  | .call _ _ => true
  | .assignment _ _ => true
  | _ => false

def anyActs : List Node → Bool
  | [] => false
  | node :: nodes => node.acts || anyActs nodes

end

def writtenKey : Node → Except Error Value
  | .identifier name => .ok (.text name)
  | .literal value => .ok value
  | _ => .error (.fault .misplacedExpression)

mutual

def read (locals scope : Value) : Node → Reading Value
  | .program body => body.read locals scope
  | .literal value => pure value
  | .array elements => do
    Reading.alloc (.list (← readAll locals scope elements))
  | .object properties => do
    Reading.alloc (.mapping .plain (← readProperties locals scope properties []))
  | .identifier name => Reading.ask fun h => h.guarded (h.resolve locals scope name)
  | .this => pure scope
  | .locals => pure locals
  | .member subject index true => do
    let container ← subject.read locals scope
    let key ← index.read locals scope
    Reading.ask fun _ => Guard.memberName key
    Reading.ask fun h => h.guarded (h.memberOrNull container key)
  | .member subject field false => do
    let container ← subject.read locals scope
    let key ← Reading.ask fun _ => field.writtenKey
    Reading.ask fun h => h.guarded (h.memberOrNull container key)
  | _ => throw (.fault .notAnExpression)

def readAll (locals scope : Value) : List Node → Reading (List Value)
  | [] => pure []
  | node :: nodes => do
    let value ← node.read locals scope
    return value :: (← readAll locals scope nodes)

def readProperties (locals scope : Value) : List Node → Entries → Reading Entries
  | [], entries => pure entries
  | .property written node :: properties, entries => do
    let key ← Reading.ask fun _ => written.writtenKey
    let value ← node.read locals scope
    match (← get).key? key with
    | some hashed => readProperties locals scope properties (entries.set hashed key value)
    | none => throw (.fault .unhashable)
  | _ :: _, _ => throw (.fault .misplacedExpression)

end

end Node

end GuardedExpr

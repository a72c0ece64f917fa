import GuardedExpr.Code.Basic
import GuardedExpr.Machine

/-!
Running code. A frame holds what one run of an evaluator has besides the machine: its locals and
scope, its slots, and its result so far.
-/

namespace GuardedExpr

structure Frame where
  locals : Value
  scope : Value
  parameter : Value
  slots : List Value
  result : Value

namespace Frame

def start (locals scope parameter : Value) (slots : Nat) : Frame :=
  ⟨locals, scope, parameter, List.replicate slots .null, .null⟩

variable {σ : Type}

def slot (frame : Frame) (index : Nat) : Run σ Value :=
  match frame.slots[index]? with
  | some value => pure value
  | none => throw (.fault .missingSlot)

def setSlot (frame : Frame) (index : Nat) (value : Value) : Run σ Frame := do
  if index < frame.slots.length then
    Run.record (.kept index value)
    return { frame with slots := frame.slots.set index value }
  else throw (.fault .missingSlot)

end Frame

variable {σ : Type}

def Selector.key (frame : Frame) : Selector → Run σ Value
  | .name field => pure (.text field)
  | .slot index => frame.slot index

namespace Code

mutual

def run (host : Host σ) (frame : Frame) : Code → Run σ Value
  | .locals => pure frame.locals
  | .scope => pure frame.scope
  | .parameter => pure frame.parameter
  | .slot index => frame.slot index
  | .owner name => do
    if ← Run.has frame.locals name then return frame.locals else return frame.scope
  | .literal value _ => pure value
  | .array items => do
    let values ← runAll host frame items
    Run.record (.built values)
    Run.alloc (.list values)
  | .object keys values => do
    let entries ← runEntries host frame keys values []
    Run.alloc (.mapping .plain entries)
  | .member container selector => do
    let subject ← container.run host frame
    let key ← selector.key frame
    Run.read subject selector key
  | .guarded code => do
    Run.guarded (← code.run host frame)
  | .call callee arguments => do
    let target ← frame.slot callee
    if !(← Run.ask fun h => h.isTruthy target) then return .null
    let heap := (← get).heap
    if !heap.isCallable target then throw (.notCallable (heap.describe target))
    let values ← runAll host frame arguments
    Run.guarded (← Run.invoke host callee target values)
  | .store site container selector value => do
    let subject ← container.run host frame
    let key ← selector.key frame
    let stored ← value.run host frame
    Run.write (.stored site subject selector key stored) subject key stored
    return stored

def runAll (host : Host σ) (frame : Frame) : List Code → Run σ (List Value)
  | [] => pure []
  | code :: codes => do
    let value ← code.run host frame
    return value :: (← runAll host frame codes)

def runEntries (host : Host σ) (frame : Frame) :
    List (Value × Text) → List Code → Entries → Run σ Entries
  | key :: keys, code :: codes, entries => do
    let value ← code.run host frame
    Run.record (.built [value])
    match (← get).heap.key? key.1 with
    | some hashed => runEntries host frame keys codes (entries.set hashed key.1 value)
    | none => throw (.fault .unhashable)
  | _, _, entries => pure entries

end

end Code

def Question.run (host : Host σ) (frame : Frame) : Question → Run σ Bool
  | .has container name => do Run.has (← container.run host frame) name
  | .holds code => do
    let value ← code.run host frame
    Run.ask fun h => h.isTruthy value

def Condition.run (host : Host σ) (frame : Frame) (condition : Condition) : Run σ Bool := do
  return (← condition.question.run host frame) != condition.denied

/-- Whether all conditions hold; after the first that does not, none is asked. -/
def Condition.runAll (host : Host σ) (frame : Frame) : List Condition → Run σ Bool
  | [] => pure true
  | condition :: conditions => do
    if ← condition.run host frame then Condition.runAll host frame conditions else return false

def Action.run (host : Host σ) (frame : Frame) : Action → Run σ Frame
  | .assign slot code => do frame.setSlot slot (← code.run host frame)
  | .create container selector => do
    let key ← selector.key frame
    let subject ← container.run host frame
    Run.create subject selector key
    return frame

def Statement.run (host : Host σ) (frame : Frame) : Statement → Run σ Frame
  | .perform action => action.run host frame
  | .guardedBy conditions action => do
    if ← Condition.runAll host frame conditions then action.run host frame else return frame
  | .checkObject code => do
    let _ ← Run.guarded (← code.run host frame)
    return frame
  | .checkName slot => do
    let key ← frame.slot slot
    Run.answer (Guard.memberName key)
    Run.record (.cleared slot key)
    return frame
  | .checkFunction slot => do
    let callee ← frame.slot slot
    Run.ask fun h => Guard.function h callee
    Run.record (.admitted slot callee)
    return frame
  | .result code => do
    let value ← code.run host frame
    return { frame with result := value }

def Statement.runAll (host : Host σ) : Frame → List Statement → Run σ Frame
  | frame, [] => pure frame
  | frame, statement :: statements => do
    Statement.runAll host (← statement.run host frame) statements

def Routine.run (host : Host σ) (routine : Routine) (locals scope parameter : Value) : Run σ Value := do
  let last ← Statement.runAll host (Frame.start locals scope parameter routine.slots) routine.statements
  return last.result

end GuardedExpr

import GuardedExpr.Heap.Classification
import GuardedExpr.Heap.Display
import GuardedExpr.Heap.Key
import GuardedExpr.Text.Digit

/-!
Members: how an expression asks for, reads and writes what stands under a key in a container. A mapping
answers for its entries, a list, tuple or text for its positions, everything else for its attributes;
what is absent reads as null.
-/

namespace GuardedExpr

/-- The position that a key means in a list, tuple or text: whole numbers in any spelling, but no
booleans. -/
def Value.position? (key : Value) : Except Error (Option Int) :=
  match key.plain with
  | .int n => .ok (some n)
  | .float x => .ok x.toInt?
  | .text t =>
    if t.isEmpty || !t.all CodePoint.isFigure then .ok none
    else if t.length > Numeral.digitLimit then .error (.fault (.tooManyDigits t.length))
    else match Numeral.ofDecimals? t with
      | some n => .ok (some n)
      | none => .error (.fault (.undecidedDigits t))
  | _ => .ok none

def itemAt {α : Type} (items : List α) (shape : α → Value) (position : Int) : Value :=
  if position < 0 then .null
  else match items[position.toNat]? with
    | some item => shape item
    | none => .null

namespace Heap

def hasMember (h : Heap) (container : Value) (name : Text) : Except Error Bool := do
  if !(← h.isTruthy container) then return false
  match h.entries? container with
  | some entries => return (Table.lookup [KeyPart.text name] entries).isSome
  | none => return (h.attribute? container name).isSome

/-- A member that is no position: an attribute, if the key is text. -/
def namedMember (h : Heap) (container key : Value) : Value :=
  match key.plain with
  | .text name => (h.attribute? container name).getD .null
  | _ => .null

def positionedMember {α : Type} (h : Heap) (container : Value) (items : List α) (shape : α → Value)
    (key : Value) : Except Error Value := do
  match ← key.position? with
  | some position => return itemAt items shape position
  | none =>
    if key.plain = .text (Text.of "length") then return .int items.length
    else return h.namedMember container key

def getMember (h : Heap) (container key : Value) : Except Error Value :=
  match container.plain with
  | .null => .ok .null
  | .text t => h.positionedMember container t (fun c => .text [c]) key
  | _ => match h.entries? container, h.items? container with
    | some entries, _ => .ok (((h.key? key).bind entries.find?).getD .null)
    | none, some items => h.positionedMember container items id key
    | none, none => .ok (h.namedMember container key)

def writePosition (items : List Value) (position : Nat) (value : Value) : List Value :=
  (items ++ List.replicate (position + 1 - items.length) Value.null).set position value

def showing (h : Heap) (key : Value) (error : Text → Error) : Error :=
  match h.overlong? key with
  | some count => .fault (.tooManyDigits count)
  | none => error (h.display key)

def unsettable (h : Heap) (container key : Value) : Error :=
  h.showing key fun shown => .unsettableProperty shown (h.describe container)

def listLimit : Nat := Nat.pow 2 63

/-- The counts of items that no memory holds. -/
def memoryLimit : Nat := Nat.pow 2 40

def setItem (h : Heap) (r : Ref) (items : List Value) (key value : Value) : Except Error Heap := do
  match ← key.position? with
  | none => throw (h.showing key .unsettableIndex)
  | some position =>
    if position < 0 then throw (h.showing key .unsettableIndex)
    else if items.length + listLimit ≤ position.toNat + 1 then throw (.fault .indexOverflow)
    else if items.length + memoryLimit ≤ position.toNat + 1 then throw (.fault .outOfMemory)
    else return h.put r (.list (writePosition items position.toNat value))

def setNamed (h : Heap) (container key value : Value) : Except Error Heap := do
  let kind ← h.classify container
  if [Kind.null, .bool, .number, .text, .array, .mapping].contains kind then
    throw (h.unsettable container key)
  match key.plain with
  | .text name => match h.setAttribute? container name value with
    | some written => return written
    | none => throw (h.unsettable container key)
  | _ => throw (h.unsettable container key)

def setMember (h : Heap) (container key value : Value) : Except Error Heap :=
  match container with
  | .ref r => match h.cell r with
    | .mapping .readOnly _ => h.setNamed container key value
    | .mapping kind entries => match h.key? key with
      | some hashed => .ok (h.put r (.mapping kind (entries.set hashed key value)))
      | none => .error (h.unsettable container key)
    | .list items => h.setItem r items key value
    | _ => h.setNamed container key value
  | _ => h.setNamed container key value

end Heap

end GuardedExpr

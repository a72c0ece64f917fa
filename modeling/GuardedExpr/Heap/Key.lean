import GuardedExpr.Heap.Basic

/-!
Mapping keys. Lists and mappings cannot be keys, nor tuples that hold one; every other value can.
-/

namespace GuardedExpr

/-- A number as a key: whole numbers have one form, whatever type they are written in. -/
def Double.keyPart (x : Double) : KeyPart :=
  match x.toInt? with
  | some n => .int n
  | none => .float x

def Scalar.keyPart : Scalar → KeyPart
  | .int n => .int n
  | .float x => x.keyPart
  | .text t => .text t

namespace Heap

def keyWithin (h : Heap) : Nat → Value → Option Key
  | depth, v => match v with
    | .null => some [.null]
    | .bool b => some [.int (if b then 1 else 0)]
    | .int n => some [.int n]
    | .float x => some [x.keyPart]
    | .text t => some [.text t]
    | .primitive p => some [.primitive p]
    | .constructor c => some [.constructor c]
    | .derived _ scalar => some [scalar.keyPart]
    | .method m => some [.method m]
    | .ref r => match h.cell r with
      | .list _ => none
      | .mapping _ _ => none
      | .tuple items => match depth with
        | 0 => none
        | depth + 1 => do
          let keys ← items.mapM (keyWithin h depth)
          return .tuple items.length :: keys.flatten
      | _ => some [.identity r]

/-- The key that a value stands for. The items of a tuple are older than the tuple, so its reference bounds
how deep tuples nest in it. -/
def key? (h : Heap) (v : Value) : Option Key :=
  match v with
  | .ref r => h.keyWithin (r + 1) v
  | _ => h.keyWithin 0 v

end Heap

namespace Entries

def find? (entries : Entries) (key : Key) : Option Value :=
  (Table.lookup key entries).map Prod.snd

/-- Sets the value under a key; the key stays as it was first written. -/
def set (entries : Entries) (key : Key) (shown value : Value) : Entries :=
  Table.alter key (fun
    | some (first, _) => (first, value)
    | none => (shown, value)) entries

end Entries

end GuardedExpr

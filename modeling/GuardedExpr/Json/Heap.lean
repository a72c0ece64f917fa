import GuardedExpr.Error
import GuardedExpr.Heap.Display
import GuardedExpr.Heap.Key
import GuardedExpr.Json.Basic

/-!
Between JSON documents and values. Every document becomes a value of its own; a value becomes a document
unless it contains itself, has keys that JSON cannot write, or has a whole number with too many digits. Objects and
functions become their displays.
-/

namespace GuardedExpr

def Scalar.toJson : Scalar → Json
  | .int n => .int n
  | .float x => .float x
  | .text t => .string t

namespace Heap

mutual

def ofJson (h : Heap) : Json → Value × Heap
  | .null => (.null, h)
  | .bool b => (.bool b, h)
  | .int n => (.int n, h)
  | .float x => (.float x, h)
  | .string t => (.text t, h)
  | .array items =>
    let (values, h) := ofJsons h items
    let (r, h) := h.alloc (.list values)
    (.ref r, h)
  | .object members =>
    let (entries, h) := ofMembers h members
    let (r, h) := h.alloc (.mapping .plain entries)
    (.ref r, h)

def ofJsons (h : Heap) : List Json → List Value × Heap
  | [] => ([], h)
  | item :: items =>
    let (value, h) := ofJson h item
    let (values, h) := ofJsons h items
    (value :: values, h)

def ofMembers (h : Heap) : List (Text × Json) → Entries × Heap
  | [] => ([], h)
  | (name, member) :: members =>
    let (value, h) := ofJson h member
    let (entries, h) := ofMembers h members
    (([KeyPart.text name], (.text name, value)) :: entries, h)

end

def withDigits {α : Type} (overlong? : Option Nat) (written : α) : Except Error α :=
  match overlong? with
  | some count => .error (.fault (.tooManyDigits count))
  | none => .ok written

def memberName (key : Value) : Except Error Text :=
  match key.plain with
  | .text t => .ok t
  | .null => .ok (Text.of "null")
  | .bool true => .ok (Text.of "true")
  | .bool false => .ok (Text.of "false")
  | .int n => withDigits (Numeral.overlong? n) (Numeral.signed n)
  | .float x => .ok (Json.floatText x)
  | _ => .error (.fault .unwritableKey)

/-- The document of a value that is no container of JSON: its display in a string. -/
def displayJson (h : Heap) (v : Value) : Except Error Json :=
  withDigits (h.overlong? v) (.string (h.display v))

def toJsonWithin (h : Heap) : Nat → List Ref → Value → Except Error Json
  | depth, path, v => match v with
    | .null => .ok .null
    | .bool b => .ok (.bool b)
    | .int n => withDigits (Numeral.overlong? n) (.int n)
    | .float x => .ok (.float x)
    | .text t => .ok (.string t)
    | .derived _ scalar => withDigits scalar.overlong? scalar.toJson
    | .ref r => match depth with
      | 0 => .error (.fault .circular)
      | depth + 1 =>
        let inside := toJsonWithin h depth (r :: path)
        let member (entry : Key × Value × Value) : Except Error (Text × Json) := do
          return (← memberName entry.2.1, ← inside entry.2.2)
        match h.cell r with
        | .list items =>
          if path.contains r then .error (.fault .circular) else do return .array (← items.mapM inside)
        | .tuple items =>
          if path.contains r then .error (.fault .circular) else do return .array (← items.mapM inside)
        | .mapping .readOnly _ => h.displayJson v
        | .mapping _ entries =>
          if path.contains r then .error (.fault .circular)
          else do return .object (← entries.mapM member)
        | _ => h.displayJson v
    | _ => h.displayJson v

def stringify (h : Heap) (v : Value) : Except Error Text := do
  return (← h.toJsonWithin (h.size + 2) [] v).render

end Heap

end GuardedExpr

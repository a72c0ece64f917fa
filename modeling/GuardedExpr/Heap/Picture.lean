import GuardedExpr.Heap.Display

/-!
Pictures: values with everything they contain, as finite trees. A container inside itself is shown by how
far it is up to it. A picture is not affected by later changes to the heap.
-/

namespace GuardedExpr

/-- A value at one moment. -/
inductive Picture where
  | null
  | bool (b : Bool)
  | int (n : Int)
  | float (x : Double)
  | text (t : Text)
  | list (items : List Picture)
  | tuple (items : List Picture)
  | mapping (kind : MappingKind) (entries : List (Picture × Picture))
  | object (cls : Text) (fields : List (Text × Picture))
  | function (name : Text) (fields : List (Text × Picture))
  | primitive (name : Text)
  | cls (name : Text)
  | module
  | method (name : Text)
  /-- The container that many steps up, one being the directly enclosing one. -/
  | cycle (up : Nat)

def Scalar.picture : Scalar → Picture
  | .int n => .int n
  | .float x => .float x
  | .text t => .text t

namespace Heap

def pictureWithin (h : Heap) : Nat → List Ref → Value → Picture
  | depth, path, v => match v with
    | .null => .null
    | .bool b => .bool b
    | .int n => .int n
    | .float x => .float x
    | .text t => .text t
    | .derived _ scalar => scalar.picture
    | .primitive p => .primitive p.name
    | .constructor c => .cls c.name
    | .method m => .method m.name
    | .ref r => match depth with
      | 0 => .null
      | depth + 1 =>
        match path.idxOf? r with
        | some position => .cycle (position + 1)
        | none =>
          let inside := pictureWithin h depth (r :: path)
          let attributes (fields : Fields) := fields.map fun field => (field.1, inside field.2)
          match h.cell r with
          | .list items => .list (items.map inside)
          | .tuple items => .tuple (items.map inside)
          | .mapping kind entries =>
            .mapping kind (entries.map fun entry => (inside entry.2.1, inside entry.2.2))
          | .object cls fields => .object cls.name (attributes fields)
          | .function name _ fields => .function name (attributes fields)
          | .userClass _ => .cls (Text.of "Plain")
          | .userInstance _ fields => .object (Text.of "Plain") (attributes fields)
          | .module _ => .module

def picture (h : Heap) (v : Value) : Picture :=
  h.pictureWithin (h.size + 2) [] v

end Heap

end GuardedExpr

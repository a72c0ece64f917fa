import GuardedExpr.Double.Shortest
import GuardedExpr.Heap.Basic
import GuardedExpr.Text.Quoted

/-!
How values are named and shown in messages, listings and trees. A container inside itself is shown by
an ellipsis in its own brackets, so that every heap has finite displays.
-/

namespace GuardedExpr

def ObjectClass.name : ObjectClass → Text
  | .box => Text.of "Box"
  | .counter => Text.of "Counter"
  | .record => Text.of "Record"
  | .frozen => Text.of "Frozen"
  | .locked => Text.of "Locked"
  | .element => Text.of "Element"
  | .global => Text.of "Global"
  | .bare => Text.of "object"

def MappingKind.name : MappingKind → Text
  | .plain => Text.of "dict"
  | .global => Text.of "HostGlobalDict"
  | .readOnly => Text.of "mappingproxy"

def Cell.typeName : Cell → Text
  | .list _ => Text.of "list"
  | .tuple _ => Text.of "tuple"
  | .mapping kind _ => kind.name
  | .object cls _ => cls.name
  | .function _ _ _ => Text.of "HostFn"
  | .userClass _ => Text.of "type"
  | .userInstance _ _ => Text.of "Plain"
  | .module _ => Text.of "module"

def Scalar.typeName : Scalar → Text
  | .int _ => Text.of "int"
  | .float _ => Text.of "float"
  | .text _ => Text.of "str"

def Scalar.display : Scalar → Text
  | .int n => Numeral.signed n
  | .float x => x.text
  | .text t => t.quoted

def Scalar.overlong? : Scalar → Option Nat
  | .int n => Numeral.overlong? n
  | _ => none

namespace Heap

def describe (h : Heap) : Value → Text
  | .null => Text.of "null"
  | .bool _ => Text.of "bool"
  | .int _ => Text.of "int"
  | .float _ => Text.of "float"
  | .text _ => Text.of "str"
  | .derived cls _ => cls.name
  | .ref r => (h.cell r).typeName
  | .primitive (.reflectiveClass _ _) => Text.of "type"
  | .primitive _ => Text.of "builtin_function_or_method"
  | .constructor _ => Text.of "type"
  | .method (.increment _) => Text.of "method"
  | .method _ => Text.of "builtin_function_or_method"

def bracketed (opening closing : String) (pieces : List Text) : Text :=
  Text.of opening ++ Text.join (Text.of ", ") pieces ++ Text.of closing

def tupleText : List Text → Text
  | [piece] => Text.of "(" ++ piece ++ Text.of ",)"
  | pieces => bracketed "(" ")" pieces

def classText (name : Text) : Text :=
  Text.of "<class " ++ Text.quoted name ++ Text.of ">"

def builtInText (name typeName : Text) : Text :=
  Text.of "<built-in method " ++ name ++ Text.of " of " ++ typeName ++ Text.of " object>"

def methodText (m : Method) : Text :=
  match m with
  | .increment _ => Text.of "<bound method Counter.inc of <Counter>>"
  | .ofList _ name => builtInText name (Text.of "list")
  | .ofTuple _ name => builtInText name (Text.of "tuple")
  | .ofScalar scalar name => builtInText name scalar.typeName

def entriesText (inside : Value → Text) (entries : Entries) : Text :=
  bracketed "\x7b" "\x7d"
    (entries.map fun entry => inside entry.2.1 ++ Text.of ": " ++ inside entry.2.2)

/-- The display of a value inside the containers on the path. Each container of the path is another
cell, so the depth is bounded by the size of the heap. -/
def displayWithin (h : Heap) : Nat → List Ref → Value → Text
  | depth, path, v => match v with
    | .null => Text.of "None"
    | .bool true => Text.of "True"
    | .bool false => Text.of "False"
    | .int n => Numeral.signed n
    | .float x => x.text
    | .text t => t.quoted
    | .derived _ scalar => scalar.display
    | .primitive (.reflectiveClass library name) =>
      classText (library ++ Text.of "." ++ name)
    | .primitive p => Text.of "<built-in function " ++ p.name ++ Text.of ">"
    | .constructor c => classText c.name
    | .method m => methodText m
    | .ref r => match depth with
      | 0 => []
      | depth + 1 =>
        let inside := displayWithin h depth (r :: path)
        let again := path.contains r
        match h.cell r with
        | .list items => if again then Text.of "[...]" else bracketed "[" "]" (items.map inside)
        | .tuple items => if again then Text.of "(...)" else tupleText (items.map inside)
        | .mapping kind entries =>
          let body := if again then Text.of "\x7b...\x7d" else entriesText inside entries
          match kind with
          | .readOnly => Text.of "mappingproxy(" ++ body ++ Text.of ")"
          | _ => body
        | .object cls _ => Text.of "<" ++ cls.name ++ Text.of ">"
        | .function name _ _ => Text.of "<fn " ++ name ++ Text.of ">"
        | .userClass _ => classText (Text.of "Plain")
        | .userInstance _ _ => Text.of "<Plain>"
        | .module _ => Text.of "<module>"

def display (h : Heap) (v : Value) : Text :=
  h.displayWithin (h.size + 2) [] v

/-- How many digits the first whole number has, in a display inside the containers on the path, that has more
than are converted. -/
def overlongWithin (h : Heap) : Nat → List Ref → Value → Option Nat
  | depth, path, v => match v with
    | .int n => Numeral.overlong? n
    | .derived _ scalar => scalar.overlong?
    | .ref r => match depth with
      | 0 => none
      | depth + 1 =>
        let inside := overlongWithin h depth (r :: path)
        if path.contains r then none
        else match h.cell r with
          | .list items => items.findSome? inside
          | .tuple items => items.findSome? inside
          | .mapping _ entries => entries.findSome? fun entry => (inside entry.2.1).or (inside entry.2.2)
          | _ => none
    | _ => none

/-- The number of digits that no display can be given for, if there is one in the display of a value. -/
def overlong? (h : Heap) (v : Value) : Option Nat :=
  h.overlongWithin (h.size + 2) [] v

/-- The text that a value is turned into. A text stays itself, a mapping of any kind shows its entries
alone, and anything else becomes its display. -/
def asText (h : Heap) (v : Value) : Text :=
  match v.plain with
  | .text t => t
  | .ref r => match h.cell r with
    | .mapping _ entries => entriesText (h.displayWithin (h.size + 1) [r]) entries
    | _ => h.display v
  | _ => h.display v

end Heap

end GuardedExpr

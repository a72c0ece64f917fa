import GuardedExpr.Error
import GuardedExpr.Heap.Basic

/-!
Attributes: the names under which values have members of their own. Objects, functions, classes and
modules keep them in a table; numbers, texts, lists and tuples have those of their built-in classes. A mapping has
none, its entries are reached by other means. Names that begin with two underscores are left out: no expression can
use them.
-/

namespace GuardedExpr

def Scalar.methods : Scalar → List Text
  | .int _ =>
    ["as_integer_ratio", "bit_count", "bit_length", "conjugate", "from_bytes", "to_bytes"].map Text.of
  | .float _ => ["as_integer_ratio", "conjugate", "fromhex", "hex", "is_integer"].map Text.of
  | .text _ =>
    ["capitalize", "casefold", "center", "count", "encode", "endswith", "expandtabs", "find", "format", "format_map",
      "index", "isalnum", "isalpha", "isascii", "isdecimal", "isdigit", "isidentifier", "islower", "isnumeric",
      "isprintable", "isspace", "istitle", "isupper", "join", "ljust", "lower", "lstrip", "maketrans", "partition",
      "removeprefix", "removesuffix", "replace", "rfind", "rindex", "rjust", "rpartition", "rsplit", "rstrip", "split",
      "splitlines", "startswith", "strip", "swapcase", "title", "translate", "upper", "zfill"].map Text.of

/-- The attributes of a number that are numbers again: its parts, and those of the fraction that it is. -/
def Scalar.part? (scalar : Scalar) (name : Text) : Option Value :=
  match scalar with
  | .int n =>
    if name = Text.of "real" || name = Text.of "numerator" then some (.int n)
    else if name = Text.of "imag" then some (.int 0)
    else if name = Text.of "denominator" then some (.int 1)
    else none
  | .float x =>
    if name = Text.of "real" then some (.float x)
    else if name = Text.of "imag" then some (.float Double.zero)
    else none
  | .text _ => none

def Scalar.attribute? (scalar : Scalar) (name : Text) : Option Value :=
  if scalar.methods.contains name then some (.method (.ofScalar scalar name)) else scalar.part? name

namespace Heap

def listMethods : List Text :=
  ["append", "clear", "copy", "count", "extend", "index", "insert", "pop", "remove", "reverse", "sort"].map Text.of

def tupleMethods : List Text :=
  ["count", "index"].map Text.of

def fields? : Cell → Option Fields
  | .object _ fields => some fields
  | .function _ _ fields => some fields
  | .userClass fields => some fields
  | .userInstance _ fields => some fields
  | .module fields => some fields
  | _ => none

def inherited? (h : Heap) (r : Ref) (name : Text) : Option Value :=
  match h.cell r with
  | .list _ => if listMethods.contains name then some (.method (.ofList r name)) else none
  | .tuple _ => if tupleMethods.contains name then some (.method (.ofTuple r name)) else none
  | .object .counter _ => if name = Text.of "inc" then some (.method (.increment r)) else none
  | .userInstance cls _ => match h.cell cls with
    | .userClass fields => Table.lookup name fields
    | _ => none
  | _ => none

def attribute? (h : Heap) (v : Value) (name : Text) : Option Value :=
  match v with
  | .bool b => (Scalar.int (if b then 1 else 0)).attribute? name
  | .int n => (Scalar.int n).attribute? name
  | .float x => (Scalar.float x).attribute? name
  | .text t => (Scalar.text t).attribute? name
  | .derived _ scalar => scalar.attribute? name
  | .ref r =>
    match (fields? (h.cell r)).bind (Table.lookup name) with
    | some found => some found
    | none => h.inherited? r name
  | _ => none

/-- Asks a value for an attribute. A record fails at a name that it does not have, any other value merely
has none. -/
def askAttribute (h : Heap) (v : Value) (name : Text) : Except Error (Option Value) :=
  match h.attribute? v name, v with
  | some found, _ => .ok (some found)
  | none, .ref r => match h.cell r with
    | .object .record _ => .error (.fault .missingAttribute)
    | _ => .ok none
  | none, _ => .ok none

def setAttribute? (h : Heap) (v : Value) (name : Text) (value : Value) : Option Heap :=
  match v with
  | .ref r => match h.cell r with
    | .object .frozen _ => none
    | .object .locked _ => none
    | .object .bare _ => none
    | .object cls fields => some (h.put r (.object cls (Table.insert name value fields)))
    | .function title behaviour fields =>
      some (h.put r (.function title behaviour (Table.insert name value fields)))
    | .userClass fields => some (h.put r (.userClass (Table.insert name value fields)))
    | .userInstance cls fields => some (h.put r (.userInstance cls (Table.insert name value fields)))
    | .module fields => some (h.put r (.module (Table.insert name value fields)))
    | _ => none
  | _ => none

/-- The member that a value has of its own under a name, null when there is none: an entry of a
mapping, an attribute of anything else. -/
def own (h : Heap) (v : Value) (name : Text) : Value :=
  match h.entries? v with
  | some entries => ((Table.lookup [KeyPart.text name] entries).map Prod.snd).getD .null
  | none => (h.attribute? v name).getD .null

end Heap

end GuardedExpr

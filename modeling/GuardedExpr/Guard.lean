import GuardedExpr.Heap.Classification

/-!
The guards of the sandbox. Each one accepts a value, which is then used unchanged, or refuses it.
-/

namespace GuardedExpr.Guard

/-- The names that no expression may use as a member, besides those that begin with two underscores:
they lead to classes, prototypes, frames and format strings. -/
def disallowedNames : List Text :=
  ["constructor", "__proto__", "__defineGetter__", "__defineSetter__", "__lookupGetter__",
    "__lookupSetter__", "mro", "format", "format_map", "f_globals", "f_locals", "f_builtins", "f_back",
    "gi_frame", "gi_code", "cr_frame", "cr_code", "ag_frame", "ag_code", "tb_frame", "tb_next"].map Text.of

def isSafeName (name : Text) : Bool :=
  !disallowedNames.contains name && !Text.startsWith (Text.of "__") name

def memberName (key : Value) : Except Error Unit :=
  match key.plain with
  | .text name => if isSafeName name then .ok () else .error .disallowedName
  | _ => .ok ()

def objectRefusal? : Kind → Option ObjectRefusal
  | .hostGlobal => some .globalNamespace
  | .hostNode => some .documentNode
  | .constructor => some .classOfClasses
  | .objectConstructor => some .classOfObjects
  | _ => none

def functionRefusal? : Kind → Option FunctionRefusal
  | .constructor => some .classOfClasses
  | .reflective => some .reflective
  | _ => none

def object (h : Heap) (v : Value) : Except Error Unit := do
  match objectRefusal? (← h.classify v) with
  | some reason => throw (.disallowedObject reason)
  | none => return ()

def function (h : Heap) (v : Value) : Except Error Unit := do
  match functionRefusal? (← h.classify v) with
  | some reason => throw (.disallowedFunction reason)
  | none => return ()

end GuardedExpr.Guard

import GuardedExpr.Code.Listing
import GuardedExpr.Guard
import GuardedExpr.Heap.Display
import GuardedExpr.Node.Basic

/-!
From trees to code. A name is resolved in two tiers: locals that own it shadow the scope. The places on
the way to the target of an assignment are compiled so that missing ones are created; and what is
volatile is stored in a slot before it is used more than once.
-/

namespace GuardedExpr

def Heap.escape (h : Heap) : Value → Text
  | .text t => t.escaped
  | v => h.display v

structure Place where
  container : Code
  selector : Selector

/-- What a node becomes: statements that prepare it, code for its value, the place it names if it names
one, and the next free slot. -/
structure Fragment where
  statements : List Statement
  code : Code
  place : Option Place
  next : Nat

namespace Fragment

def inline (code : Code) (next : Nat) : Fragment :=
  ⟨[], code, none, next⟩

def spilled (fragment : Fragment) : Fragment :=
  { statements := fragment.statements ++ [.perform (.assign fragment.next fragment.code)]
    code := .slot fragment.next
    place := none
    next := fragment.next + 1 }

def settled (fragment : Fragment) : Fragment :=
  if fragment.code.isVolatile then fragment.spilled else fragment

/-- Statements that read the callee of a call into a slot: from its place again where it has one, as the
arguments may have changed it. -/
def reread (fragment : Fragment) (slot : Nat) : List Statement :=
  match fragment.place with
  | some place => [.checkObject place.container,
      .perform (.assign slot (.member place.container place.selector))]
  | none => [.perform (.assign slot fragment.code)]

end Fragment

def Question.yes (question : Question) : Condition := ⟨false, question⟩

def Question.no (question : Question) : Condition := ⟨true, question⟩

/-- Statements that read a name into a slot, after creating it in the scope where that is asked for. -/
def resolution (name : Text) (create : Bool) (slot : Nat) : List Statement :=
  let inLocals := Question.has .locals name
  let reading (container : Code) := Action.assign slot (.member container (.name name))
  [.guardedBy [inLocals.yes] (reading .locals)] ++
  (if create then
    [.guardedBy [inLocals.no, (Question.holds .scope).yes, (Question.has .scope name).no]
      (.create .scope (.name name))]
  else []) ++
  [.guardedBy [inLocals.no, (Question.holds .scope).yes] (reading .scope),
    .checkObject (.slot slot)]

/-- Statements that read a member into a slot, after creating it where that is asked for and it is false. -/
def access (container : Code) (selector : Selector) (create : Bool) (slot : Nat) : List Statement :=
  let target := Code.member container selector
  (if create then [.guardedBy [(Question.holds target).no] (.create container selector)] else []) ++
  [.guardedBy [(Question.holds container).yes] (.assign slot (.guarded target))]

def checkedName (name : Text) : Except Error Unit :=
  Guard.memberName (.text name)

def propertyKey (h : Heap) : Node → Except Error (Value × Text)
  | .identifier name => .ok (.text name, h.escape (.text name))
  | .literal value => .ok (value, h.escape value)
  | _ => .error (.fault .misplacedExpression)

def memberName : Node → Except Error Text
  | .identifier name => .ok name
  | _ => .error (.fault .misplacedExpression)

def Code.site : Code → Nat
  | .slot index => index
  | _ => 0

namespace Node

mutual

/-- The code of a node, from a free slot on. The heap is only asked for the displays of literals. -/
def compile (h : Heap) : Node → Bool → Nat → Except Error Fragment
  | .program body, _, free => do
    let inner ← body.compile h false free
    return { inner with statements := inner.statements ++ [.result inner.code], place := none }
  | .literal value, _, free => .ok (.inline (.literal value (h.escape value)) free)
  | .array elements, _, free => do
    let (statements, codes, next) ← compileAll h elements free
    return ⟨statements, .array codes, none, next⟩
  | .object properties, _, free => do
    let (statements, keys, codes, next) ← compileProperties h properties free
    return ⟨statements, .object keys codes, none, next⟩
  | .identifier name, create, free => do
    checkedName name
    return ⟨resolution name create free, .slot free, some ⟨.owner name, .name name⟩, free + 1⟩
  | .this, _, free => .ok (.inline .scope free)
  | .locals, _, free => .ok (.inline .locals free)
  | .parameter, _, free => .ok (.inline .parameter free)
  | .member subject index true, create, free => do
    let left := (← subject.compile h create (free + 1)).settled
    let key := (← index.compile h false left.next).spilled
    let selector := Selector.slot key.code.site
    return ⟨left.statements ++ key.statements ++ [.checkName key.code.site] ++
        access left.code selector create free,
      .slot free, some ⟨left.code, selector⟩, key.next⟩
  | .member subject field false, create, free => do
    let left := (← subject.compile h create (free + 1)).settled
    let name ← memberName field
    checkedName name
    return ⟨left.statements ++ access left.code (.name name) create free,
      .slot free, some ⟨left.code, .name name⟩, left.next⟩
  | .call callee arguments, _, free => do
    let target ← callee.compile h false free
    let (statements, codes, next) ← compileAll h arguments target.next
    return ⟨target.statements ++ statements ++ target.reread next ++ [.checkFunction next],
      .call next (codes.map .guarded), none, next + 1⟩
  | .assignment left right, _, free => do
    let target ← left.compile h true free
    match target.place with
    | none => throw .invalidTarget
    | some place =>
      let value ← right.compile h false target.next
      return ⟨target.statements ++ value.statements,
        .store target.code.site place.container place.selector (.guarded value.code), none, value.next⟩
  | .property _ _, _, _ => .error (.fault .notAnExpression)
  | .foreign, _, _ => .error (.fault .notAnExpression)

def compileAll (h : Heap) : List Node → Nat → Except Error (List Statement × List Code × Nat)
  | [], free => .ok ([], [], free)
  | node :: nodes, free => do
    let first ← node.compile h false free
    let (statements, codes, next) ← compileAll h nodes first.next
    return (first.statements ++ statements, first.code :: codes, next)

def compileProperties (h : Heap) :
    List Node → Nat → Except Error (List Statement × List (Value × Text) × List Code × Nat)
  | [], free => .ok ([], [], [], free)
  | .property key value :: properties, free => do
    let shown ← propertyKey h key
    let first ← value.compile h false free
    let (statements, keys, codes, next) ← compileProperties h properties first.next
    return (first.statements ++ statements, shown :: keys, first.code :: codes, next)
  | _ :: _, _ => .error (.fault .misplacedExpression)

end

def routine (h : Heap) (node : Node) : Except Error Routine := do
  let fragment ← node.compile h false 0
  return ⟨fragment.statements, fragment.next⟩

end Node

end GuardedExpr

import GuardedExpr.Code.Compile

/-!
The compiler at work. An instance emits one statement after the other and declares one slot after the other, each for
the node that is being compiled; what it has emitted stays when it comes to a node that it refuses. It may compile any
number of trees, and puts aside what it has emitted before it starts on the next one.
-/

namespace GuardedExpr

/-- Where a node stands in a tree: which child is taken at each step from the root. -/
abbrev Address := List Nat

/-- What an instance has emitted: statements and the names of slots, each with the node that it was emitted for, and the
number of the next slot. -/
structure Emission where
  body : List (Address × Statement)
  names : List (Address × Text)
  next : Nat

def Emission.fresh : Emission := ⟨[], [], 0⟩

abbrev Emitter (α : Type) := ExceptT Error (StateM Emission) α

namespace Emitter

variable {α : Type}

def check (outcome : Except Error α) : Emitter α :=
  match outcome with
  | .ok value => pure value
  | .error failure => throw failure

def emit (node : Address) (statements : List Statement) : Emitter Unit :=
  modify fun e => { e with body := e.body ++ statements.map fun statement => (node, statement) }

def allocate (node : Address) : Emitter Nat := do
  let e ← get
  set { e with names := e.names ++ [(node, slotName e.next)], next := e.next + 1 }
  return e.next

def spill (node : Address) (code : Code) : Emitter Nat := do
  let slot ← allocate node
  emit node [.perform (.assign slot code)]
  return slot

def settle (node : Address) (code : Code) : Emitter Code :=
  if code.isVolatile then do return .slot (← spill node code) else pure code

abbrev Emitted := Code × Option Place

/-- The code that reads a callee again, from its place where it has one; the container is checked first. -/
def again (node : Address) (callee : Emitted) : Emitter Code :=
  match callee.2 with
  | some place => do
    emit node [.checkObject place.container]
    return .member place.container place.selector
  | none => pure callee.1

mutual

def compile (h : Heap) : Node → Bool → Address → Emitter Emitted
  | .program body, _, here => do
    let inner ← compile h body false (here ++ [0])
    emit here [.result inner.1]
    return (inner.1, none)
  | .literal value, _, _ => return (.literal value (h.escape value), none)
  | .array elements, _, here => do return (.array (← compileAll h elements here 0), none)
  | .object properties, _, here => do
    let pairs ← compileProperties h properties here 0
    return (.object pairs.1 pairs.2, none)
  | .identifier name, create, here => do
    check (checkedName name)
    let slot ← allocate here
    emit here (resolution name create slot)
    return (.slot slot, some ⟨.owner name, .name name⟩)
  | .this, _, _ => return (.scope, none)
  | .locals, _, _ => return (.locals, none)
  | .parameter, _, _ => return (.parameter, none)
  | .member subject index true, create, here => do
    let slot ← allocate here
    let left ← settle here (← compile h subject create (here ++ [0])).1
    let key ← spill here (← compile h index false (here ++ [1])).1
    emit here [.checkName key]
    emit here (access left (.slot key) create slot)
    return (.slot slot, some ⟨left, .slot key⟩)
  | .member subject field false, create, here => do
    let slot ← allocate here
    let left ← settle here (← compile h subject create (here ++ [0])).1
    let name ← check (memberName field)
    check (checkedName name)
    emit here (access left (.name name) create slot)
    return (.slot slot, some ⟨left, .name name⟩)
  | .call callee arguments, _, here => do
    let target ← compile h callee false (here ++ [0])
    let codes ← compileAll h arguments here 1
    let slot ← spill here (← again here target)
    emit here [.checkFunction slot]
    return (.call slot (codes.map .guarded), none)
  | .assignment left right, _, here => do
    let target ← compile h left true (here ++ [0])
    match target.2 with
    | none => throw .invalidTarget
    | some place =>
      let value ← compile h right false (here ++ [1])
      return (.store target.1.site place.container place.selector (.guarded value.1), none)
  | .property _ _, _, _ => throw (.fault .notAnExpression)
  | .foreign, _, _ => throw (.fault .notAnExpression)

def compileAll (h : Heap) : List Node → Address → Nat → Emitter (List Code)
  | [], _, _ => return []
  | node :: nodes, parent, child => do
    let first ← compile h node false (parent ++ [child])
    return first.1 :: (← compileAll h nodes parent (child + 1))

def compileProperties (h : Heap) :
    List Node → Address → Nat → Emitter (List (Value × Text) × List Code)
  | [], _, _ => return ([], [])
  | .property key value :: properties, parent, child => do
    let shown ← check (propertyKey h key)
    let first ← compile h value false (parent ++ [child, 1])
    let others ← compileProperties h properties parent (child + 1)
    return (shown :: others.1, first.1 :: others.2)
  | _ :: _, _, _ => throw (.fault .misplacedExpression)

end

end Emitter

/-- A body with its declared names, and for which nodes of the tree they were made. -/
structure EmittedBody where
  body : List (Address × Statement)
  names : List (Address × Text)

def EmittedBody.routine (emitted : EmittedBody) : Routine :=
  ⟨emitted.body.map Prod.snd, emitted.names.length⟩

namespace Emitter

def body (h : Heap) (tree : Node) : Emitter EmittedBody := do
  set Emission.fresh
  let _ ← compile h tree false []
  let e ← get
  return ⟨e.body, e.names⟩

/-- Compiles a tree whose root is a program: its body, and the body of an assignment where it names a place. -/
def evaluator (h : Heap) (tree : Node) : Emitter (EmittedBody × Option EmittedBody) := do
  let main ← body h tree
  match tree with
  | .program expression =>
    if expression.isAssignable then return (main, some (← body h (.program (.assignment expression .parameter))))
    else return (main, none)
  | _ => throw (.fault .misplacedExpression)

/-- The state of an instance that has compiled the given trees, or tried to. -/
def history : List (Heap × Node) → Emission
  | [] => .fresh
  | (h, tree) :: earlier => ((evaluator h tree).run.run (history earlier)).2

end Emitter

end GuardedExpr

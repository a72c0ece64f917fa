import GuardedExpr.Code.Basic
import GuardedExpr.Guard
import GuardedExpr.Heap.Member

/-!
The machine that evaluators run on: the heap, what the host keeps for itself, and a journal of everything
that the evaluator does to slots, containers and functions. The host sees and changes the heap when it is
called, but neither the slots nor the journal.
-/

namespace GuardedExpr

/-- What an evaluator does in a run, and the answer where there is one. Where a member is used, the selector
tells where its key comes from. -/
inductive Event where
  /-- Put a value into a slot. -/
  | kept (slot : Nat) (value : Value)
  /-- Asked whether a container has a name. -/
  | asked (container : Value) (name : Text) (answer : Option Bool)
  /-- Read a member. -/
  | read (container : Value) (selector : Selector) (key : Value) (answer : Option Value)
  /-- Put a new empty object into a member. -/
  | created (container : Value) (selector : Selector) (key made : Value)
  /-- Wrote a member for the assignment with the given slot. -/
  | stored (site : Nat) (container : Value) (selector : Selector) (key value : Value)
  /-- Found the key in a slot fit to be used. -/
  | cleared (slot : Nat) (key : Value)
  /-- Found the function in a slot fit to be called. -/
  | admitted (slot : Nat) (callee : Value)
  /-- Called the function in a slot. -/
  | invoked (slot : Nat) (callee : Value) (arguments : List Value)
  /-- Put values into a new array or object. -/
  | built (items : List Value)
  deriving DecidableEq

/-- A host: what calling a value does. Its own state is of a type of its choice. -/
structure Host (σ : Type) where
  call : Value → List Value → Heap → σ → Except Error Value × Heap × σ

/-- The state of a run; the journal has the newest event first. -/
structure Machine (σ : Type) where
  heap : Heap
  world : σ
  journal : List Event

def Machine.note {σ : Type} (m : Machine σ) (event : Event) : Machine σ :=
  { m with journal := event :: m.journal }

/-- A part of a run. What it has changed stays changed when it fails. -/
abbrev Run (σ α : Type) := ExceptT Error (StateM (Machine σ)) α

namespace Run

variable {σ α : Type}

def answer (outcome : Except Error α) : Run σ α :=
  match outcome with
  | .ok value => pure value
  | .error failure => throw failure

def record (event : Event) : Run σ Unit :=
  modify fun m => m.note event

def ask (question : Heap → Except Error α) : Run σ α := do
  answer (question (← get).heap)

def alloc (cell : Cell) : Run σ Value := do
  let m ← get
  let (r, heap) := m.heap.alloc cell
  set { m with heap }
  return .ref r

def has (container : Value) (name : Text) : Run σ Bool := do
  let outcome := (← get).heap.hasMember container name
  record (.asked container name outcome.toOption)
  answer outcome

def read (container : Value) (selector : Selector) (key : Value) : Run σ Value := do
  let outcome := (← get).heap.getMember container key
  record (.read container selector key outcome.toOption)
  answer outcome

def write (event : Event) (container key value : Value) : Run σ Unit := do
  record event
  let m ← get
  match m.heap.setMember container key value with
  | .ok heap => set { m with heap }
  | .error failure => throw failure

def create (container : Value) (selector : Selector) (key : Value) : Run σ Unit := do
  let made ← alloc (.mapping .plain [])
  write (.created container selector key made) container key made

def invoke (host : Host σ) (slot : Nat) (callee : Value) (arguments : List Value) : Run σ Value := do
  record (.invoked slot callee arguments)
  let m ← get
  let (outcome, heap, world) := host.call callee arguments m.heap m.world
  set { m with heap, world }
  answer outcome

def guarded (value : Value) : Run σ Value := do
  ask fun h => Guard.object h value
  return value

end Run

end GuardedExpr

import GuardedExpr.Evaluator
import GuardedExpr.Heap.Picture
import GuardedExpr.Host.Method

/-!
A host with functions of a few kinds, classes and methods. It keeps a log of the calls of its functions and
a register of containers that functions refer to by name; some of its functions evaluate expressions in
turn.
-/

namespace GuardedExpr

structure CallRecord where
  name : Text
  arguments : List Picture

structure World where
  /-- The calls so far, newest first. -/
  calls : List CallRecord
  /-- The containers that have a name. -/
  register : Table Text Value
  /-- The first mark that no value carries yet. -/
  marks : Nat

namespace World

/-- A host without history. The mark zero is left for values read from JSON. -/
def start : World := ⟨[], [], 1⟩

def reserve (world : World) (source : Text) : Nat × World :=
  (world.marks, { world with marks := world.marks + source.length + 1 })

/-- Compiles a source, with marks for its values that no value carries yet. Where that fails, they are set aside for
nothing and stay free. -/
def compile (world : World) (h : Heap) (strict : Bool) (source : Text) :
    List Notice × Except Error Evaluator × World :=
  let (first, later) := world.reserve source
  match Evaluator.ofSource h strict first source with
  | (notices, .error failure) => (notices, .error failure, world)
  | (notices, .ok evaluator) => (notices, .ok evaluator, later)

end World

abbrev CallOutcome := Except Error Value × Heap × World

namespace StandardHost

def firstOf (arguments : List Value) : Value :=
  arguments.headD .null

def refuse (heap : Heap) (world : World) (cause : Fault) : CallOutcome :=
  (.error (.fault cause), heap, world)

def count? (heap : Heap) (v : Value) : Option Nat :=
  match v.plain with
  | .text t => some t.length
  | _ => match heap.entries? v, heap.items? v with
    | some entries, _ => some entries.length
    | none, some items => some items.length
    | none, none => none

/-- A number as a step of a counter or a position: an integer that is no boolean. -/
def whole? (v : Value) : Option Int :=
  match v.plain with
  | .int n => some n
  | _ => none

def increment (heap : Heap) (world : World) (r : Ref) (arguments : List Value) : CallOutcome :=
  match heap.cell r with
  | .object cls fields =>
    let amount := (whole? (firstOf arguments)).getD 1
    let before := ((Table.lookup (Text.of "n") fields).bind whole?).getD 0
    let after := Value.int (before + amount)
    (.ok after, heap.put r (.object cls (Table.insert (Text.of "n") after fields)), world)
  | _ => refuse heap world .badArguments

def makeCell (heap : Heap) (world : World) (cell : Cell) : CallOutcome :=
  let (r, heap) := heap.alloc cell
  (.ok (.ref r), heap, world)

def answer (heap : Heap) (world : World) : Answer → CallOutcome
  | .scalar scalar => (.ok scalar.value, heap, world)
  | .truth b => (.ok (.bool b), heap, world)
  | .list scalars => makeCell heap world (.list (scalars.map Scalar.value))
  | .tuple scalars => makeCell heap world (.tuple (scalars.map Scalar.value))

def answerTurn (heap : Heap) (world : World) (turn : Turn) : CallOutcome :=
  match turn.answer with
  | .inl value => (.ok value, heap, world)
  | .inr items => makeCell heap world (.list items)

def turn (heap : Heap) (items arguments : List Value) (name : Text)
    (table : Table Text (List Value → List Argument → Except Fault Turn)) : Except Fault Turn :=
  match Table.lookup name table with
  | some method => method items (arguments.map (heap.argument items))
  | none => .error .undescribed

def callMethod (heap : Heap) (world : World) (arguments : List Value) : Method → CallOutcome
  | .increment r => increment heap world r arguments
  | .ofList r name => match heap.cell r with
    | .list items => match turn heap items arguments name ListMethod.table with
      | .ok turn => answerTurn (heap.put r (.list turn.items)) world turn
      | .error cause => refuse heap world cause
    | _ => refuse heap world .badArguments
  | .ofTuple r name => match heap.cell r with
    | .tuple items => match turn heap items arguments name ListMethod.tupleTable with
      | .ok turn => answerTurn heap world turn
      | .error cause => refuse heap world cause
    | _ => refuse heap world .badArguments
  | .ofScalar scalar name => match scalar.call name (arguments.map (heap.argument [])) with
    | .ok found => answer heap world found
    | .error cause => refuse heap world cause

def makeWhole : List Value → Except Error Value
  | [] => .ok (.int 0)
  | [v] => Conversion.whole v
  | [v, base] => Conversion.wholeInBase v base
  | _ => .error (.fault .badArguments)

def makeText (heap : Heap) : List Value → Except Error Value
  | [] => .ok (.text [])
  | [v] => Conversion.text heap v
  | _ => .error (.fault .badArguments)

def makeEntries (heap : Heap) : List Value → Except Error Entries
  | [] => .ok []
  | [v] => Conversion.entries heap v
  | _ => .error (.fault .badArguments)

def construct (heap : Heap) (world : World) (arguments : List Value) : Constructor → CallOutcome
  | .ofClasses _ => refuse heap world .badArguments
  | .ofObjects =>
    if arguments.isEmpty then makeCell heap world (.object .bare []) else refuse heap world .badArguments
  | .ofIntegers => (makeWhole arguments, heap, world)
  | .ofTexts => (makeText heap arguments, heap, world)
  | .ofMappings => match makeEntries heap arguments with
    | .ok entries => makeCell heap world (.mapping .plain entries)
    | .error failure => (.error failure, heap, world)

def putRegistered (heap : Heap) (world : World) (key value : Value) (target : Text) :
    Except Error Heap :=
  match Table.lookup target world.register with
  | some (.ref r) => match heap.cell r with
    | .mapping .readOnly _ => .error (.fault .badArguments)
    | .mapping kind entries => match heap.key? key with
      | some hashed => .ok (heap.put r (.mapping kind (entries.set hashed key value)))
      | none => .error (.fault .unhashable)
    | _ => .error (.fault .badArguments)
  | _ => .error (.fault .unregistered)

def evaluateFor (host : Host World) (heap : Heap) (world : World) (arguments : List Value)
    (source : Text) (marks : Nat) (scope : Text) : CallOutcome :=
  let (list, heap) := heap.alloc (.list arguments)
  let name := Text.of "args"
  let (locals, heap) := heap.alloc (.mapping .plain [([.text name], (.text name, .ref list))])
  let subject := (Table.lookup scope world.register).getD .null
  match (Evaluator.ofSource heap false marks source).2 with
  | .error failure => (.error failure, heap, world)
  | .ok evaluator =>
    let (outcome, machine) :=
      ((evaluator.run host (.ref locals) subject).run.run ⟨heap, world, []⟩)
    (outcome, machine.heap, machine.world)

def callFunction (host : Host World) (heap : Heap) (world : World) (r : Ref) (arguments : List Value)
    (name : Text) (behaviour : Behaviour) (fields : Fields) : CallOutcome :=
  let world := { world with calls := ⟨name, arguments.map heap.picture⟩ :: world.calls }
  match behaviour with
  | .collect => makeCell heap world (.list arguments)
  | .first => (.ok (firstOf arguments), heap, world)
  | .fresh => makeCell heap world (.mapping .plain [])
  | .constant value => (.ok value, heap, world)
  | .sequence container next =>
    let item := do
      let position ← next
      let items ← heap.yielded? container
      items[position]?
    let next := item.bind fun _ => next.map (· + 1)
    (.ok (item.getD .null), heap.put r (.function name (.sequence container next) fields), world)
  | .put key value target => match putRegistered heap world key value target with
    | .ok heap => (.ok (firstOf arguments), heap, world)
    | .error failure => (.error failure, heap, world)
  | .fail message => (.error (.host message), heap, world)
  | .evaluate source marks scope => evaluateFor host heap world arguments source marks scope

def invoke (host : Host World) (callee : Value) (arguments : List Value) (heap : Heap) (world : World) :
    CallOutcome :=
  match callee with
  | .ref r => match heap.cell r with
    | .function name behaviour fields =>
      callFunction host heap world r arguments name behaviour fields
    | .userClass _ =>
      if arguments.isEmpty then makeCell heap world (.userInstance r []) else refuse heap world .badArguments
    | _ => refuse heap world .badArguments
  | .primitive .size => match arguments with
    | [v] => match count? heap v with
      | some n => (.ok (.int n), heap, world)
      | none => refuse heap world .badArguments
    | _ => refuse heap world .badArguments
  | .constructor c => construct heap world arguments c
  | .method m => callMethod heap world arguments m
  | _ => refuse heap world .badArguments

/-- Makes a mapping of a value whose attribute names the keys. As the value itself has no entries to read,
there can be no keys. -/
def makeFromKeys (host : Host World) (heap : Heap) (world : World) (keys : Value) : CallOutcome :=
  match invoke host keys [] heap world with
  | (.ok found, heap, world) =>
    if heap.yielded? found = some [] then makeCell heap world (.mapping .plain [])
    else refuse heap world .badArguments
  | failed => failed

/-- What calling a value does, given the host for evaluations inside the call. A value with keys is made a
mapping by way of its keys, unless it is one already. -/
def call (host : Host World) (callee : Value) (arguments : List Value) (heap : Heap) (world : World) :
    CallOutcome :=
  match callee, arguments with
  | .constructor .ofMappings, [v] =>
    if (heap.entries? v).isSome then invoke host callee arguments heap world
    else match heap.askAttribute v (Text.of "keys") with
      | .ok (some keys) => makeFromKeys host heap world keys
      | .ok none => invoke host callee arguments heap world
      | .error failure => (.error failure, heap, world)
  | _, _ => invoke host callee arguments heap world

end StandardHost

def Host.standard : Nat → Host World
  | 0 => ⟨fun _ _ heap world => StandardHost.refuse heap world .exhausted⟩
  | depth + 1 => ⟨StandardHost.call (Host.standard depth)⟩

/-- A depth of nested evaluations that no sensible expression needs. -/
def Host.depth : Nat := 10000

end GuardedExpr

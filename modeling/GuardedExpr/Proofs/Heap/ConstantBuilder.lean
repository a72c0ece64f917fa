import GuardedExpr.Proofs.Heap.ClosedHeaps
import GuardedExpr.Proofs.Node.RegularTrees
import GuardedExpr.Proofs.Run.RunPostconditions

/-!
Constant expressions as builders. What an expression makes that is built from literals alone depends on how many cells
the memory has, as that tells which references are new, and on nothing else: neither on the locals nor on the scope,
nor on what is in any cell.
-/

namespace GuardedExpr

variable {σ α β : Type}

structure Product (α : Type) where
  made : α
  cells : List Cell
  events : List Event

def Builder (α : Type) : Type :=
  Nat → Product α

namespace Builder

instance : Monad Builder where
  pure made := fun _ => ⟨made, [], []⟩
  bind first next := fun size =>
    let one := first size
    let two := next one.made (size + one.cells.length)
    ⟨two.made, one.cells ++ two.cells, two.events ++ one.events⟩

def note (event : Event) : Builder Unit :=
  fun _ => ⟨(), [], [event]⟩

def alloc (cell : Cell) : Builder Value :=
  fun size => ⟨.ref size, [cell], []⟩

def OnlyBuilds (builder : Builder α) : Prop :=
  ∀ size, ∀ event ∈ (builder size).events, ∃ items, event = .built items

theorem onlyBuilds_pure (made : α) : (pure made : Builder α).OnlyBuilds :=
  fun _ => List.forall_mem_nil _

theorem onlyBuilds_bind {first : Builder β} {next : β → Builder α} (one : first.OnlyBuilds)
    (two : ∀ made, (next made).OnlyBuilds) : (first >>= next).OnlyBuilds :=
  fun size => List.forall_mem_append.mpr ⟨two _ _, one size⟩

theorem onlyBuilds_note (items : List Value) : (note (.built items)).OnlyBuilds :=
  fun _ => List.forall_mem_singleton.mpr ⟨items, rfl⟩

theorem onlyBuilds_alloc (cell : Cell) : (alloc cell).OnlyBuilds :=
  fun _ => List.forall_mem_nil _

end Builder

def Heap.adding (h : Heap) (product : Product α) : Heap :=
  ⟨h.cells ++ product.cells.toArray⟩

theorem Heap.size_adding (h : Heap) (product : Product α) :
    (h.adding product).size = h.size + product.cells.length := by
  simp [adding, size]

def Machine.adding (m : Machine σ) (product : Product α) : Machine σ :=
  { m with heap := m.heap.adding product, journal := product.events ++ m.journal }

theorem Machine.heap_adding (m : Machine σ) (product : Product α) :
    (m.adding product).heap = m.heap.adding product :=
  rfl

namespace Run

/-- From every machine, a part of a run makes what a builder makes in a memory of that size, and does not fail. -/
def Makes (part : Run σ α) (builder : Builder α) : Prop :=
  ∀ m, part.Leads m
    (fun made last => made = (builder m.heap.size).made ∧ last = m.adding (builder m.heap.size)) fun _ _ => False

theorem Makes.run {part : Run σ α} {builder : Builder α} (makes : part.Makes builder) (m : Machine σ) :
    ExceptT.run part m = (.ok (builder m.heap.size).made, m.adding (builder m.heap.size)) := by
  have leads := makes m
  unfold Leads at leads
  split at leads
  · next ended =>
    obtain ⟨rfl, rfl⟩ := leads
    exact ended
  · exact leads.elim

theorem makes_pure (made : α) : (pure made : Run σ α).Makes (pure made) := by
  intro m
  have same : m.adding (⟨made, [], []⟩ : Product α) = m := by simp [Machine.adding, Heap.adding]
  exact (leads_pure made).mpr ⟨rfl, same.symm⟩

theorem makes_bind {part : Run σ β} {next : β → Run σ α} {first : Builder β} {second : β → Builder α}
    (one : part.Makes first) (two : ∀ made, (next made).Makes (second made)) :
    (part >>= next).Makes (first >>= second) := by
  intro m
  refine Leads.bind (one m) ?_
  rintro made last ⟨rfl, rfl⟩
  refine (two _ _).mono ?_ fun _ _ impossible => impossible
  rintro value after ⟨rfl, rfl⟩
  rw [Machine.heap_adding, Heap.size_adding]
  exact ⟨rfl, by simp [Machine.adding, Heap.adding, bind]⟩

theorem makes_record (event : Event) : (record event : Run σ Unit).Makes (Builder.note event) :=
  fun m => (leads_record event).mpr ⟨rfl, by simp [Machine.adding, Heap.adding, Builder.note, Machine.note]⟩

theorem makes_alloc (cell : Cell) : (alloc cell : Run σ Value).Makes (Builder.alloc cell) :=
  fun m => (leads_alloc cell).mpr ⟨rfl, by simp [Machine.adding, Heap.adding, Builder.alloc, Heap.alloc]⟩

end Run

namespace Node

def keyValue : Node → Value
  | .identifier name => .text name
  | .literal value => value
  | _ => .null

mutual

def build : Node → Builder Value
  | .literal value => pure value
  | .array elements => do
    let values ← buildAll elements
    Builder.note (.built values)
    Builder.alloc (.list values)
  | .object properties => do
    let entries ← buildEntries properties []
    Builder.alloc (.mapping .plain entries)
  | _ => pure .null

def buildAll : List Node → Builder (List Value)
  | [] => pure []
  | node :: nodes => do
    let value ← node.build
    return value :: (← buildAll nodes)

/-- Entries are put in one by one, so that a key that stands twice has its later value in its first place. -/
def buildEntries : List Node → Entries → Builder Entries
  | .property key value :: properties, entries => do
    let made ← value.build
    Builder.note (.built [made])
    buildEntries properties (entries.set ((Heap.empty.key? key.keyValue).getD []) key.keyValue made)
  | _, entries => pure entries

end

open Builder in
mutual

theorem onlyBuilds_build : (node : Node) → node.isConstant → node.build.OnlyBuilds
  | .literal value, _ => onlyBuilds_pure value
  | .array elements, constant =>
    onlyBuilds_bind (onlyBuilds_buildAll elements constant) fun values =>
      onlyBuilds_bind (onlyBuilds_note values) fun _ => onlyBuilds_alloc _
  | .object properties, constant =>
    onlyBuilds_bind (onlyBuilds_buildEntries properties constant []) fun _ => onlyBuilds_alloc _
  | .program _, _ => onlyBuilds_pure _

theorem onlyBuilds_buildAll : (nodes : List Node) → areConstant nodes → (buildAll nodes).OnlyBuilds
  | [], _ => onlyBuilds_pure []
  | node :: nodes, constant => by
    obtain ⟨here, there⟩ := Bool.and_eq_true_iff.mp constant
    exact onlyBuilds_bind (onlyBuilds_build node here) fun _ =>
      onlyBuilds_bind (onlyBuilds_buildAll nodes there) fun _ => onlyBuilds_pure _

theorem onlyBuilds_buildEntries : (properties : List Node) → haveConstantValues properties → (entries : Entries) →
    (buildEntries properties entries).OnlyBuilds
  | [], _, entries => onlyBuilds_pure entries
  | .property _ value :: properties, constant, _ => by
    obtain ⟨here, there⟩ := Bool.and_eq_true_iff.mp constant
    exact onlyBuilds_bind (onlyBuilds_build value here) fun made =>
      onlyBuilds_bind (onlyBuilds_note [made]) fun _ => onlyBuilds_buildEntries properties there _

end

/-- The key of a property is a scalar, with the same key in every memory. -/
theorem exists_propertyKey (h : Heap) {key : Node} (is : key.isKey) :
    (∃ shown, propertyKey h key = .ok (key.keyValue, shown)) ∧ key.keyValue.isScalar ∧
      ∃ hashed, ∀ other : Heap, other.key? key.keyValue = some hashed := by
  cases key with
  | identifier name => exact ⟨⟨_, rfl⟩, rfl, _, fun _ => rfl⟩
  | literal value =>
    obtain ⟨hashed, same, _⟩ := Heap.key?_of_isScalar is
    exact ⟨⟨_, rfl⟩, is, hashed, same⟩
  | _ => cases is

open Run

mutual

/-- A constant expression needs no statement, and its code makes what it builds; it is run anew wherever it is used. -/
theorem exists_code_of_constant (h : Heap) (create : Bool) (free : Nat) : (node : Node) → node.isConstant →
    node.isRegular → ∃ code, node.compile h create free = .ok (.inline code free) ∧ code.isVolatile = false ∧
      ∀ {σ : Type} (host : Host σ) (frame : Frame), (code.run host frame).Makes node.build
  | .literal value, _, _ => ⟨_, rfl, rfl, fun _ _ => makes_pure value⟩
  | .array elements, constant, regular => by
    obtain ⟨codes, compiled, still, makes⟩ := exists_codes_of_constant h free elements constant regular
    refine ⟨.array codes, by rw [compile, compiled]; rfl, still, fun host frame => ?_⟩
    exact makes_bind (makes host frame) fun values => makes_bind (makes_record _) fun _ => makes_alloc _
  | .object properties, constant, regular => by
    obtain ⟨keys, codes, compiled, still, makes⟩ := exists_properties_of_constant h free properties constant regular
    refine ⟨.object keys codes, by rw [compile, compiled]; rfl, still, fun host frame => ?_⟩
    exact makes_bind (makes host frame []) fun entries => makes_alloc _

theorem exists_codes_of_constant (h : Heap) (free : Nat) : (nodes : List Node) → areConstant nodes →
    areRegular nodes → ∃ codes, compileAll h nodes free = .ok ([], codes, free) ∧ Code.anyVolatile codes = false ∧
      ∀ {σ : Type} (host : Host σ) (frame : Frame), (Code.runAll host frame codes).Makes (buildAll nodes)
  | [], _, _ => ⟨[], rfl, rfl, fun _ _ => makes_pure []⟩
  | node :: nodes, constant, regular => by
    obtain ⟨constantHere, constantThere⟩ := Bool.and_eq_true_iff.mp constant
    obtain ⟨here, there⟩ := Bool.and_eq_true_iff.mp regular
    obtain ⟨code, first, still, makes⟩ := exists_code_of_constant h false free node constantHere here
    obtain ⟨codes, others, stillAll, makeAll⟩ := exists_codes_of_constant h free nodes constantThere there
    refine ⟨code :: codes, ?_, Bool.or_eq_false_iff.mpr ⟨still, stillAll⟩, fun host frame => ?_⟩
    · simp only [compileAll, first, others, bind, Except.bind, pure, Except.pure, Fragment.inline, List.nil_append]
    · exact makes_bind (makes host frame) fun value => makes_bind (makeAll host frame) fun values => makes_pure _

theorem exists_properties_of_constant (h : Heap) (free : Nat) : (properties : List Node) →
    haveConstantValues properties → areRegularProperties properties →
      ∃ keys codes, compileProperties h properties free = .ok ([], keys, codes, free) ∧
        Code.anyVolatile codes = false ∧ ∀ {σ : Type} (host : Host σ) (frame : Frame) (entries : Entries),
          (Code.runEntries host frame keys codes entries).Makes (buildEntries properties entries)
  | [], _, _ => ⟨[], [], rfl, rfl, fun _ _ entries => makes_pure entries⟩
  | .property key value :: properties, constant, regular => by
    obtain ⟨constantHere, constantThere⟩ := Bool.and_eq_true_iff.mp constant
    obtain ⟨both, there⟩ := Bool.and_eq_true_iff.mp regular
    obtain ⟨is, here⟩ := Bool.and_eq_true_iff.mp both
    obtain ⟨⟨shown, keyed⟩, _, hashed, same⟩ := exists_propertyKey h is
    obtain ⟨code, first, still, makes⟩ := exists_code_of_constant h false free value constantHere here
    obtain ⟨keys, codes, others, stillAll, makeAll⟩ :=
      exists_properties_of_constant h free properties constantThere there
    refine ⟨(key.keyValue, shown) :: keys, code :: codes, ?_, Bool.or_eq_false_iff.mpr ⟨still, stillAll⟩,
      fun host frame entries => ?_⟩
    · simp only [compileProperties, keyed, first, others, bind, Except.bind, pure, Except.pure, Fragment.inline,
        List.nil_append]
    · have own : (Heap.empty.key? key.keyValue).getD [] = hashed := by rw [same]; rfl
      rw [Code.runEntries, buildEntries, own]
      refine makes_bind (makes host frame) fun made => makes_bind (makes_record _) fun _ => ?_
      intro m
      refine (leads_bind _ _).mpr ((leads_get).mpr ?_)
      rw [same]
      exact makeAll host frame _ m

end

end Node

/-- The evaluator of a constant expression makes what the expression builds, wherever it is run. -/
theorem Evaluator.exists_makes (h : Heap) (text : Text) {body : Node} (constant : body.isConstant)
    (regular : body.isRegular) : ∃ evaluator, Evaluator.ofTree h (.program body) text = .ok evaluator ∧
      evaluator.tree = .program body ∧ ∀ {σ : Type} (host : Host σ) (locals scope : Value),
        (evaluator.run host locals scope).Makes body.build := by
  obtain ⟨code, compiled, -, makes⟩ := Node.exists_code_of_constant h false 0 body constant regular
  have unassignable : body.isAssignable = false := by cases body <;> first | rfl | cases constant
  refine ⟨⟨text, .program body, ⟨[.result code], 0⟩, none⟩, ?_, rfl, fun host locals scope => ?_⟩
  · simp only [ofTree, Node.routine, Node.compile, compiled, unassignable, bind, Except.bind, pure, Except.pure,
      Fragment.inline, List.nil_append, Bool.false_eq_true, if_false]
  · intro m
    refine (Run.leads_bind _ _).mpr ((Run.leads_bind _ _).mpr ((Run.leads_bind _ _).mpr ?_))
    exact makes host _ m

end GuardedExpr

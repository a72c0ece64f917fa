import GuardedExpr.Proofs.Heap.CommonRegions
import GuardedExpr.Proofs.Heap.ConstantBuilder
import GuardedExpr.Proofs.Heap.HeapContainment

/-!
Constant expressions are constant. What one makes has the same picture every time, which the expression alone tells,
and consists of new containers, so no two results have one in common.
-/

namespace GuardedExpr

namespace Heap

def Contains (h : Heap) (first : Nat) (cells : List Cell) : Prop :=
  ∀ i c, cells[i]? = some c → h.cell (first + i) = c

def Span (first count r : Nat) : Prop :=
  first ≤ r ∧ r < first + count

variable {h : Heap} {first : Nat} {cells more : List Cell} {depth : Nat} {path : List Ref} {v : Value}

theorem Contains.append (cells : List Cell) (contains : h.Contains first (cells ++ more)) :
    h.Contains first cells ∧ h.Contains (first + cells.length) more := by
  refine ⟨fun i c found => contains i c ?_, fun i c found => ?_⟩
  · rw [List.getElem?_append_left (List.getElem?_eq_some_iff.mp found).1]
    exact found
  · rw [Nat.add_assoc]
    refine contains (cells.length + i) c ?_
    rw [List.getElem?_append_right (Nat.le_add_right _ _), Nat.add_sub_cancel_left]
    exact found

theorem contains_put (contains : h.Contains first cells) {s : Ref} (before : s < first) (c : Cell) :
    (h.put s c).Contains first cells := by
  intro i d found
  have apart : first + i ≠ s := (before.trans_le (Nat.le_add_right _ _)).ne'
  exact (cell_put_other _ _ apart).trans (contains i d found)

structure Exposes (h : Heap) (first : Nat) (cells : List Cell) (depth : Nat) (path : List Ref) : Prop where
  contains : h.Contains first cells
  deep : cells.length ≤ depth
  apart : ∀ r ∈ path, ¬ Span first cells.length r

theorem Exposes.append (cells : List Cell) (exposes : h.Exposes first (cells ++ more) depth path) :
    h.Exposes first cells depth path ∧ h.Exposes (first + cells.length) more depth path := by
  obtain ⟨contains, deep, apart⟩ := exposes
  rw [List.length_append] at deep apart
  obtain ⟨front, back⟩ := contains.append cells
  refine ⟨⟨front, by omega, fun r member span => apart r member ?_⟩,
    ⟨back, by omega, fun r member span => apart r member ?_⟩⟩
  · exact ⟨span.1, Nat.lt_of_lt_of_le span.2 (by omega)⟩
  · exact ⟨Nat.le_trans (Nat.le_add_right _ _) span.1, Nat.lt_of_lt_of_le span.2 (by omega)⟩

theorem Exposes.last {c : Cell} (cells : List Cell) (exposes : h.Exposes first (cells ++ [c]) depth path) :
    ∃ inner, depth = inner + 1 ∧ path.idxOf? (first + cells.length) = none ∧ h.cell (first + cells.length) = c ∧
      h.Exposes first cells inner ((first + cells.length) :: path) := by
  obtain ⟨before, ⟨contains, deep, apart⟩⟩ := exposes.append cells
  obtain ⟨contained, deep', _⟩ := exposes
  rw [List.length_append, List.length_singleton] at deep'
  obtain ⟨inner, rfl⟩ : ∃ inner, depth = inner + 1 := Nat.exists_eq_add_one.mpr (by omega)
  refine ⟨inner, rfl, ?_, contains 0 c rfl, before.contains, by omega, ?_⟩
  · rw [List.idxOf?_eq_none_iff]
    exact fun member => apart _ member ⟨Nat.le_refl _, Nat.lt_succ_self _⟩
  · rintro r (_ | ⟨_, member⟩) span
    · exact absurd span.2 (Nat.lt_irrefl _)
    · exact before.apart r member span

theorem pictureWithin_of_isScalar (scalar : v.isScalar) : h.pictureWithin depth path v = empty.picture v := by
  cases v with
  | ref | primitive | constructor | method => cases scalar
  | _ => cases depth <;> rfl

end Heap

open Heap

namespace Node

variable {h : Heap} {size depth : Nat} {path : List Ref}

mutual

def portrait : Node → Picture
  | .literal value => Heap.empty.picture value
  | .array elements => .list (portraits elements)
  | .object properties => .mapping .plain ((portraitEntries properties []).map Prod.snd)
  | _ => .null

def portraits : List Node → List Picture
  | [] => []
  | node :: nodes => node.portrait :: portraits nodes

def portraitEntries : List Node → Table Key (Picture × Picture) → Table Key (Picture × Picture)
  | .property key value :: properties, entries =>
    portraitEntries properties (Table.alter ((Heap.empty.key? key.keyValue).getD []) (fun
      | some (first, _) => (first, value.portrait)
      | none => (Heap.empty.picture key.keyValue, value.portrait)) entries)
  | _, entries => entries

end

end Node

def Entries.depict (picture : Value → Picture) (entries : Entries) : Table Key (Picture × Picture) :=
  entries.map fun entry => (entry.1, picture entry.2.1, picture entry.2.2)

private theorem Entries.depict_set (picture : Value → Picture) (entries : Entries) (hashed : Key)
    (shown value : Value) :
    (entries.set hashed shown value).depict picture = Table.alter hashed (fun
      | some (first, _) => (first, picture value)
      | none => (picture shown, picture value)) (entries.depict picture) := by
  induction entries with
  | nil => rfl
  | cons entry rest hypothesis =>
    unfold Entries.set at hypothesis ⊢
    by_cases here : hashed = entry.1
    · simp [Table.alter, depict, here]
    · simpa [Table.alter, depict, here] using hypothesis

namespace Node

variable {h : Heap} {size depth : Nat} {path : List Ref}

theorem buildAll_cons (node : Node) (nodes : List Node) (size : Nat) :
    let here := node.build size
    let there := buildAll nodes (size + here.cells.length)
    (buildAll (node :: nodes) size).made = here.made :: there.made ∧
      (buildAll (node :: nodes) size).cells = here.cells ++ there.cells :=
  ⟨rfl, congrArg ((node.build size).cells ++ ·) (List.append_nil _)⟩

mutual

/-- The picture of what a constant expression makes is the one that the expression tells. -/
theorem pictureWithin_build : (node : Node) → node.isConstant → node.isRegular → ∀ {size depth : Nat} {path : List Ref},
    h.Exposes size (node.build size).cells depth path →
      h.pictureWithin depth path (node.build size).made = node.portrait
  | .literal value, _, regular, _, _, _, _ => pictureWithin_of_isScalar regular
  | .array elements, constant, regular, size, depth, path, exposes => by
    obtain ⟨inner, rfl, new, cell, exposed⟩ := exposes.last (buildAll elements size).cells
    have items := pictureWithin_buildAll elements constant regular exposed
    change h.pictureWithin (inner + 1) path (.ref (size + (buildAll elements size).cells.length)) = _
    rw [pictureWithin]
    simp only [new, cell]
    exact congrArg Picture.list items
  | .object properties, constant, regular, size, depth, path, exposes => by
    obtain ⟨inner, rfl, new, cell, exposed⟩ := exposes.last (buildEntries properties [] size).cells
    have entries := depict_buildEntries properties constant regular [] exposed
    change h.pictureWithin (inner + 1) path (.ref (size + (buildEntries properties [] size).cells.length)) = _
    rw [pictureWithin]
    simp only [new, cell]
    rw [portrait, ← show Entries.depict _ [] = [] from rfl, ← entries, Entries.depict, List.map_map]
    rfl

theorem pictureWithin_buildAll : (nodes : List Node) → areConstant nodes → areRegular nodes →
    ∀ {size depth : Nat} {path : List Ref}, h.Exposes size (buildAll nodes size).cells depth path →
      (buildAll nodes size).made.map (h.pictureWithin depth path) = portraits nodes
  | [], _, _, _, _, _, _ => rfl
  | node :: nodes, constant, regular, size, depth, path, exposes => by
    obtain ⟨constantHere, constantThere⟩ := Bool.and_eq_true_iff.mp constant
    obtain ⟨regularHere, regularThere⟩ := Bool.and_eq_true_iff.mp regular
    obtain ⟨made, cells⟩ := buildAll_cons node nodes size
    rw [cells] at exposes
    obtain ⟨here, there⟩ := exposes.append _
    rw [made, List.map_cons, pictureWithin_build node constantHere regularHere here,
      pictureWithin_buildAll nodes constantThere regularThere there, portraits]

theorem depict_buildEntries : (properties : List Node) → haveConstantValues properties →
    areRegularProperties properties → (entries : Entries) → ∀ {size depth : Nat} {path : List Ref},
      h.Exposes size (buildEntries properties entries size).cells depth path →
        (buildEntries properties entries size).made.depict (h.pictureWithin depth path) =
          portraitEntries properties (entries.depict (h.pictureWithin depth path))
  | [], _, _, _, _, _, _, _ => rfl
  | .property key value :: properties, constant, regular, entries, size, depth, path, exposes => by
    obtain ⟨constantHere, constantThere⟩ := Bool.and_eq_true_iff.mp constant
    obtain ⟨both, regularThere⟩ := Bool.and_eq_true_iff.mp regular
    obtain ⟨is, regularHere⟩ := Bool.and_eq_true_iff.mp both
    obtain ⟨_, scalar, _⟩ := exists_propertyKey h is
    obtain ⟨here, there⟩ := exposes.append (value.build size).cells
    refine (depict_buildEntries properties constantThere regularThere _ there).trans ?_
    rw [Entries.depict_set, pictureWithin_build value constantHere regularHere here, pictureWithin_of_isScalar scalar,
      portraitEntries]

end

/-! All containers of the result are new. -/

variable {region : Ref → Prop}

theorem spans_of_add {first count more : Nat} (inside : ∀ r, Span first (count + more) r → region r) :
    (∀ r, Span first count r → region r) ∧ ∀ r, Span (first + count) more r → region r :=
  ⟨fun _ span => inside _ ⟨span.1, Nat.lt_of_lt_of_le span.2 (by omega)⟩,
    fun _ span => inside _ ⟨Nat.le_trans (Nat.le_add_right _ _) span.1, Nat.lt_of_lt_of_le span.2 (by omega)⟩⟩

mutual

theorem lies_build : (node : Node) → node.isConstant → node.isRegular → ∀ {size : Nat},
    (∀ r, Span size (node.build size).cells.length r → region r) →
      (node.build size).made.LiesIn region ∧ ∀ cell ∈ (node.build size).cells, cell.LiesIn region
  | .literal _, _, regular, _, _ => ⟨Value.liesIn_of_isScalar regular _, List.forall_mem_nil _⟩
  | .array elements, constant, regular, size, inside => by
    have count : ((array elements).build size).cells.length = (buildAll elements size).cells.length + 1 :=
      List.length_append
    rw [count] at inside
    obtain ⟨items, cells⟩ := lies_buildAll elements constant regular (spans_of_add inside).1
    refine ⟨(spans_of_add inside).2 _ ⟨Nat.le_refl _, Nat.lt_succ_self _⟩, fun cell member => ?_⟩
    rcases List.mem_append.mp member with before | last
    · exact cells cell before
    · obtain rfl := List.mem_singleton.mp last
      exact items
  | .object properties, constant, regular, size, inside => by
    have count : ((object properties).build size).cells.length =
        (buildEntries properties [] size).cells.length + 1 := List.length_append
    rw [count] at inside
    obtain ⟨entries, cells⟩ :=
      lies_buildEntries properties constant regular [] (List.forall_mem_nil _) (spans_of_add inside).1
    refine ⟨(spans_of_add inside).2 _ ⟨Nat.le_refl _, Nat.lt_succ_self _⟩, fun cell member => ?_⟩
    rcases List.mem_append.mp member with before | last
    · exact cells cell before
    · obtain rfl := List.mem_singleton.mp last
      exact entries

theorem lies_buildAll : (nodes : List Node) → areConstant nodes → areRegular nodes → ∀ {size : Nat},
    (∀ r, Span size (buildAll nodes size).cells.length r → region r) →
      (∀ item ∈ (buildAll nodes size).made, item.LiesIn region) ∧
        ∀ cell ∈ (buildAll nodes size).cells, cell.LiesIn region
  | [], _, _, _, _ => ⟨List.forall_mem_nil _, List.forall_mem_nil _⟩
  | node :: nodes, constant, regular, size, inside => by
    obtain ⟨constantHere, constantThere⟩ := Bool.and_eq_true_iff.mp constant
    obtain ⟨regularHere, regularThere⟩ := Bool.and_eq_true_iff.mp regular
    obtain ⟨made, cells⟩ := buildAll_cons node nodes size
    rw [cells, List.length_append] at inside
    obtain ⟨first, own⟩ := lies_build node constantHere regularHere (spans_of_add inside).1
    obtain ⟨others, rest⟩ := lies_buildAll nodes constantThere regularThere (spans_of_add inside).2
    rw [made, cells]
    exact ⟨List.forall_mem_cons.mpr ⟨first, others⟩, List.forall_mem_append.mpr ⟨own, rest⟩⟩

theorem lies_buildEntries : (properties : List Node) → haveConstantValues properties →
    areRegularProperties properties → (entries : Entries) → entries.LieIn region → ∀ {size : Nat},
      (∀ r, Span size (buildEntries properties entries size).cells.length r → region r) →
        (buildEntries properties entries size).made.LieIn region ∧
          ∀ cell ∈ (buildEntries properties entries size).cells, cell.LiesIn region
  | [], _, _, _, lie, _, _ => ⟨lie, List.forall_mem_nil _⟩
  | .property key value :: properties, constant, regular, entries, lie, size, inside => by
    obtain ⟨constantHere, constantThere⟩ := Bool.and_eq_true_iff.mp constant
    obtain ⟨both, regularThere⟩ := Bool.and_eq_true_iff.mp regular
    obtain ⟨is, regularHere⟩ := Bool.and_eq_true_iff.mp both
    have count : (buildEntries (.property key value :: properties) entries size).cells.length = _ := List.length_append
    rw [count] at inside
    obtain ⟨made, own⟩ := lies_build value constantHere regularHere (spans_of_add inside).1
    have keyed : key.keyValue.LiesIn region := by
      obtain ⟨_, scalar, _⟩ := exists_propertyKey Heap.empty is
      exact Value.liesIn_of_isScalar scalar _
    obtain ⟨lies, rest⟩ := lies_buildEntries properties constantThere regularThere _ (lie.set keyed made _)
      (spans_of_add inside).2
    exact ⟨lies, List.forall_mem_append.mpr ⟨own, rest⟩⟩

end

end Node

/-! Results. -/

theorem Cell.LiesIn.contents {region : Ref → Prop} {c : Cell} (lies : c.LiesIn region) {v : Value}
    (member : v ∈ c.contents) : v.LiesIn region := by
  have ofFields {fields : Fields} (lie : fields.LieIn region) (member : v ∈ fields.map Prod.snd) :
      v.LiesIn region := by
    obtain ⟨field, present, rfl⟩ := List.mem_map.mp member
    exact lie field present
  cases c with
  | list | tuple => exact lies v member
  | mapping =>
    obtain ⟨entry, present, rfl⟩ := List.mem_map.mp member
    exact (lies entry present).2
  | userInstance =>
    rcases List.mem_cons.mp member with rfl | inside
    · exact lies.1
    · exact ofFields lies.2 inside
  | _ => exact ofFields lies member

/-- What is inside a value that lies in a closed region is in the region. -/
theorem Heap.Encloses.reaches {h : Heap} {region : Ref → Prop} (closed : h.Encloses region) {v : Value}
    (lies : v.LiesIn region) {r : Ref} (reaches : h.Reaches v r) : region r := by
  obtain ⟨s, rfl, path⟩ := reaches
  induction path with
  | refl => exact lies
  | tail _ holds inside => exact (closed _ inside).contents holds

section

variable {body : Node} {h g : Heap} {product : Product Value} {r : Ref}

theorem Heap.cell_adding_old (product : Product Value) (old : r < h.size) : (h.adding product).cell r = h.cell r := by
  have inside : r < h.cells.size := old
  simp [adding, cell, Array.getD_eq_getD_getElem?, Array.getElem?_append_left inside]

theorem Heap.contains_adding : (h.adding product).Contains h.size product.cells := by
  intro i c found
  have beyond : h.cells.size ≤ h.cells.size + i := Nat.le_add_right _ _
  simp [adding, cell, size, Array.getD_eq_getD_getElem?, Array.getElem?_append_right beyond, found]

theorem Node.span_of_reaches (constant : body.isConstant) (regular : body.isRegular)
    (reaches : (h.adding (body.build h.size)).Reaches (body.build h.size).made r) :
    h.size ≤ r ∧ r < (h.adding (body.build h.size)).size := by
  obtain ⟨lies, cells⟩ := lies_build body constant regular
    fun r (span : Span h.size (body.build h.size).cells.length r) => span
  rw [Heap.size_adding]
  refine Encloses.reaches (fun r span => ?_) lies reaches
  obtain ⟨i, rfl⟩ := Nat.exists_eq_add_of_le span.1
  have inside : i < (body.build h.size).cells.length := Nat.lt_of_add_lt_add_left span.2
  rw [Heap.contains_adding i _ (List.getElem?_eq_getElem inside)]
  exact cells _ (List.getElem_mem inside)

/-- The result of a constant expression is shown as the expression tells, as long as the cells that were added for it
are as they were. -/
theorem Node.picture_of_build (constant : body.isConstant) (regular : body.isRegular)
    (later : (h.adding (body.build h.size)).size ≤ g.size)
    (same : ∀ r, h.size ≤ r → r < (h.adding (body.build h.size)).size →
      g.cell r = (h.adding (body.build h.size)).cell r) :
    g.picture (body.build h.size).made = body.portrait := by
  rw [Heap.size_adding] at later same
  refine pictureWithin_build body constant regular ⟨fun i c found => ?_, by omega, List.forall_mem_nil _⟩
  have inside := (List.getElem?_eq_some_iff.mp found).1
  rw [same _ (Nat.le_add_right _ _) (Nat.add_lt_add_left inside _)]
  exact Heap.contains_adding i c found

end

/-- Constant expressions are constant. An expression that is built from literals alone compiles, and each call of its
evaluator gives a value: it adds cells that are told by the size of the memory alone, and changes and asks for nothing,
neither in the locals and the scope nor in any cell there was. The results of any two calls have the same picture.
Where the second call comes after the first, in a memory that anything may have happened to, no container is in both
results, and neither result changes its picture with what is done to the containers of the other. -/
theorem Evaluator.constant_is_constant {body : Node} (constant : body.isConstant) (regular : body.isRegular) (h : Heap)
    (text : Text) :
    ∃ evaluator, Evaluator.ofTree h (.program body) text = .ok evaluator ∧ evaluator.isConstant ∧
    (∃ builder : Builder Value, builder.OnlyBuilds ∧ ∀ {σ : Type} (host : Host σ) (locals scope : Value),
      (evaluator.run host locals scope).Makes builder) ∧
    ∀ {σ τ : Type} (host : Host σ) (other : Host τ) (locals scope locals' scope' : Value) (m : Machine σ)
      (n : Machine τ), ∃ v w m' n',
        (evaluator.run host locals scope).run.run m = (.ok v, m') ∧
        (evaluator.run other locals' scope').run.run n = (.ok w, n') ∧
        m'.heap.picture v = n'.heap.picture w ∧
        (∀ r < m.heap.size, m'.heap.cell r = m.heap.cell r) ∧ m'.world = m.world ∧
        (∀ r < n.heap.size, n'.heap.cell r = n.heap.cell r) ∧ n'.world = n.world ∧
        (m'.heap.size ≤ n.heap.size →
          (∀ r, m'.heap.Reaches v r → ¬ n'.heap.Reaches w r) ∧
          ∀ g : Heap, n'.heap.size ≤ g.size →
            ((∀ r, ¬ m'.heap.Reaches v r → g.cell r = n'.heap.cell r) → g.picture w = n'.heap.picture w) ∧
            ((∀ r < m'.heap.size, ¬ n'.heap.Reaches w r → g.cell r = m'.heap.cell r) →
              g.picture v = m'.heap.picture v)) := by
  obtain ⟨evaluator, compiled, tree, makes⟩ := Evaluator.exists_makes h text constant regular
  refine ⟨evaluator, compiled, by rw [Evaluator.isConstant, tree]; exact constant,
    ⟨body.build, Node.onlyBuilds_build body constant, makes⟩, ?_⟩
  intro σ τ host other locals scope locals' scope' m n
  have shown (g : Heap) := Node.picture_of_build (h := m.heap) (g := g) constant regular
  have also (g : Heap) := Node.picture_of_build (h := n.heap) (g := g) constant regular
  have new (r : Ref) := Node.span_of_reaches (h := m.heap) (r := r) constant regular
  have newer (r : Ref) := Node.span_of_reaches (h := n.heap) (r := r) constant regular
  refine ⟨_, _, _, _, (makes host locals scope).run m, (makes other locals' scope').run n, ?_,
    fun r old => Heap.cell_adding_old _ old, rfl, fun r old => Heap.cell_adding_old _ old, rfl, fun later => ?_⟩
  · simp only [Machine.heap_adding]
    rw [shown _ (Nat.le_refl _) fun _ _ _ => rfl, also _ (Nat.le_refl _) fun _ _ _ => rfl]
  · simp only [Machine.heap_adding] at later ⊢
    refine ⟨fun r first second => ?_, fun g enough => ⟨fun same => ?_, fun same => ?_⟩⟩
    · exact Nat.lt_irrefl _ ((new r first).2.trans_le (later.trans (newer r second).1))
    · rw [also g enough fun r from_ _ => same r fun reached =>
        Nat.lt_irrefl _ ((new r reached).2.trans_le (later.trans from_)), also _ (Nat.le_refl _) fun _ _ _ => rfl]
    · have grown : n.heap.size ≤ (n.heap.adding (body.build n.heap.size)).size := by
        rw [Heap.size_adding]
        exact Nat.le_add_right _ _
      rw [shown g (later.trans (grown.trans enough)) fun r _ inside => same r inside fun reached =>
        Nat.lt_irrefl _ (inside.trans_le (later.trans (newer r reached).1)), shown _ (Nat.le_refl _) fun _ _ _ => rfl]

/-- A key that stands twice, and an array in an object: two calls, the second on what the first left behind. -/
theorem Evaluator.constant_object_anew :
    let name := Node.identifier (Text.of "a")
    let body := Node.object [.property name (.literal (.int 1)), .property name (.array [.literal .null])]
    body.isConstant ∧ body.isRegular ∧ ∃ evaluator, Evaluator.ofTree Heap.empty (.program body) [] = .ok evaluator ∧
      ∀ (host : Host Unit) (m : Machine Unit), ∃ v w m' m'',
        (evaluator.run host .null .null).run.run m = (.ok v, m') ∧
        (evaluator.run host .null .null).run.run m' = (.ok w, m'') ∧
        m'.heap.picture v = m''.heap.picture w ∧ ∀ r, m'.heap.Reaches v r → ¬ m''.heap.Reaches w r := by
  intro name body
  have constant : body.isConstant := rfl
  have regular : body.isRegular := rfl
  obtain ⟨evaluator, compiled, _, _, calls⟩ := constant_is_constant constant regular Heap.empty []
  refine ⟨constant, regular, evaluator, compiled, fun host m => ?_⟩
  obtain ⟨v, _, m', _, first, _⟩ := calls host host .null .null .null .null m m
  obtain ⟨_, w, _, m'', again, second, same, _, _, _, _, apart⟩ := calls host host .null .null .null .null m m'
  cases first.symm.trans again
  exact ⟨v, w, m', m'', first, second, same, (apart (Nat.le_refl _)).1⟩

end GuardedExpr

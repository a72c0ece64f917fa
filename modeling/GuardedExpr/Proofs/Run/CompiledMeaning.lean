import GuardedExpr.Proofs.Code.CheckedCode
import GuardedExpr.Proofs.Code.QuietCode
import GuardedExpr.Proofs.Run.MirroredReadings
import GuardedExpr.Proofs.Run.RunConfinement

/-!
Compiled code means the tree. For an expression that neither calls nor assigns, running its statements and then
its code comes to the same as reading its tree directly: the same first error, or a value alike. The induction
is on the tree, for any free slot and any two heaps that have grown from one.
-/

namespace GuardedExpr

variable {σ : Type} {host : Host σ} {base : Heap}

namespace Node

/-- The key of a property is a scalar, which has the same form on every heap. -/
theorem writtenKey_of_propertyKey {h : Heap} {key : Node} (written : key.isWritten) {shown : Value × Text}
    (keyed : propertyKey h key = .ok shown) :
    key.writtenKey = .ok shown.1 ∧ ∃ hashed : Key, (∀ other : Heap, other.key? shown.1 = some hashed) ∧
      ∀ bound, hashed.all (·.isBelow bound) := by
  refine ⟨?_, Heap.key?_of_isScalar (isScalar_of_propertyKey written keyed)⟩
  cases key <;> cases keyed <;> rfl

variable {h : Heap} {locals scope : Value}

mutual

/-- The code of an expression that neither calls nor assigns means what the reading of its tree is, from any
free slot on, and whatever has been built before. -/
theorem means_compile : (node : Node) → node.isWritten → node.acts = false →
    ∀ {free : Nat} {fragment : Fragment} {frame : Frame} {m : Machine σ} {b : Heap},
      node.compile h false free = .ok fragment → frame.Ready base locals scope free m.heap b →
        fragment.next ≤ frame.slots.length → fragment.Means host base (node.read locals scope) frame free m b
  | .literal value, scalar, _, free, _, frame, m, b, compiled, ready, _ => by
    cases compiled
    apply Fragment.means_inline ready
    exact Code.yields_pure (fun _ _ => rfl) (Value.isBelow_of_isScalar scalar _)
  | .this, _, _, free, _, frame, m, b, compiled, ready, _ => by
    cases compiled
    apply Fragment.means_inline ready
    exact Code.yields_pure (fun after agrees => congrArg pure (agrees.scope.trans ready.scope)) ready.below.2
  | .locals, _, _, free, _, frame, m, b, compiled, ready, _ => by
    cases compiled
    apply Fragment.means_inline ready
    exact Code.yields_pure (fun after agrees => congrArg pure (agrees.locals.trans ready.locals)) ready.below.1
  | .array elements, written, calm, free, _, frame, m, b, compiled, ready, room => by
    obtain ⟨statements, codes, next, elementsCompiled, rfl⟩ := parts_array compiled
    exact Fragment.means_array ready (means_compileAll elements written calm elementsCompiled ready room)
  | .object properties, written, calm, free, _, frame, m, b, compiled, ready, room => by
    obtain ⟨statements, keys, codes, next, propertiesCompiled, rfl⟩ := parts_object compiled
    exact Fragment.means_object ready
      (means_compileProperties properties written calm propertiesCompiled ready room)
  | .identifier name, _, _, free, _, frame, m, b, compiled, ready, room => by
    obtain ⟨_, rfl⟩ := parts_identifier compiled
    exact Fragment.means_identifier ready room name _
  | .member subject index true, written, calm, free, _, frame, m, b, compiled, ready, room => by
    obtain ⟨subjectWritten, indexWritten⟩ := Bool.and_eq_true_iff.mp written
    obtain ⟨subjectCalm, indexCalm⟩ := Bool.or_eq_false_iff.mp calm
    obtain ⟨inner, computed, subjectCompiled, indexCompiled, rfl⟩ := parts_computed compiled
    rw [((becomes_of_compile subject subjectCompiled).isQuiet subjectWritten subjectCalm).settled] at indexCompiled room ⊢
    have above := (becomes_of_compile subject subjectCompiled).le_next
    have beyond := (becomes_of_compile index indexCompiled).le_next
    -- A quiet subject is not spilled: its code is deferred, and is run again after the key has been evaluated.
    have inside : computed.next < frame.slots.length := room
    refine Fragment.means_computed ready ?_ above ?_ beyond inside _
    · exact means_compile subject subjectWritten subjectCalm subjectCompiled
        (ready.mono (Nat.le_succ free)) (by omega)
    · intro after last further next length
      exact means_compile index indexWritten indexCalm indexCompiled next (by omega)
  | .member subject field false, written, calm, free, _, frame, m, b, compiled, ready, room => by
    obtain ⟨subjectWritten, _⟩ := Bool.and_eq_true_iff.mp written
    obtain ⟨subjectCalm, _⟩ := Bool.or_eq_false_iff.mp calm
    obtain ⟨inner, name, subjectCompiled, named, _, rfl⟩ := parts_named compiled
    rw [((becomes_of_compile subject subjectCompiled).isQuiet subjectWritten subjectCalm).settled] at room ⊢
    cases field with
    | identifier other =>
      cases named
      exact Fragment.means_named ready (means_compile subject subjectWritten subjectCalm subjectCompiled
        (ready.mono (Nat.le_succ free)) room) (becomes_of_compile subject subjectCompiled).le_next room name _
    | _ => cases named

theorem means_compileAll : (nodes : List Node) → areWritten nodes → anyActs nodes = false →
    ∀ {free next : Nat} {statements : List Statement} {codes : List Code} {frame : Frame} {m : Machine σ}
      {b : Heap}, compileAll h nodes free = .ok (statements, codes, next) →
        frame.Ready base locals scope free m.heap b → next ≤ frame.slots.length →
          Fragment.AllMean host base statements codes next (readAll locals scope nodes) frame free m b
  | [], _, _, free, _, _, _, frame, m, b, compiled, ready, _ => by
    cases compiled
    exact ⟨[], b, rfl, Frame.passes_refl ready.unused, .nil⟩
  | node :: nodes, written, calm, free, next, _, _, frame, m, b, compiled, ready, room => by
    obtain ⟨nodeWritten, nodesWritten⟩ := Bool.and_eq_true_iff.mp written
    obtain ⟨nodeCalm, nodesCalm⟩ := Bool.or_eq_false_iff.mp calm
    obtain ⟨first, statements, codes, nodeCompiled, nodesCompiled, rfl, rfl⟩ := parts_cons compiled
    have above := (becomes_of_compile node nodeCompiled).le_next
    have beyond : first.next ≤ next := (becomes_of_compileAll nodes false nodesCompiled).le_next
    have head := means_compile node nodeWritten nodeCalm nodeCompiled ready (by omega)
    refine head.append (Nat.le_refl free) ?_ above fun _ failed => Reading.bind_run_error failed
    intro value after last further read passes yields
    have length := passes.agrees.room
    have tail := means_compileAll nodes nodesWritten nodesCalm nodesCompiled (ready.pass passes) (by omega)
    refine Run.Leads.mono tail ?_ ?_
    · rintro ending final ⟨values, furthest, others, rest, yield⟩
      refine ⟨value :: values, furthest, ?_, rest, ?_⟩
      · rw [readAll, Reading.bind_run_ok read, Reading.bind_run_ok others]
        rfl
      · exact .cons (yields.mono beyond rest.agrees rest.left rest.right) yield
    · intro failure _ failed
      rw [readAll, Reading.bind_run_ok read]
      exact Reading.bind_run_error failed

theorem means_compileProperties : (properties : List Node) → areWrittenProperties properties →
    anyActs properties = false →
    ∀ {free next : Nat} {statements : List Statement} {keys : List (Value × Text)} {codes : List Code}
      {frame : Frame} {m : Machine σ} {b : Heap},
      compileProperties h properties free = .ok (statements, keys, codes, next) →
        frame.Ready base locals scope free m.heap b → next ≤ frame.slots.length →
          Fragment.PropertiesMean host base statements keys codes next
            (readProperties locals scope properties) frame free m b
  | [], _, _, free, _, _, _, _, frame, m, b, compiled, ready, _ => by
    cases compiled
    exact ⟨[], b, fun _ => rfl, Frame.passes_refl ready.unused, .nil⟩
  | .property key node :: properties, written, calm, free, next, _, _, _, frame, m, b, compiled, ready, room => by
    obtain ⟨propertyWritten, othersWritten⟩ := Bool.and_eq_true_iff.mp written
    obtain ⟨keyWritten, nodeWritten⟩ := Bool.and_eq_true_iff.mp propertyWritten
    obtain ⟨propertyCalm, othersCalm⟩ := Bool.or_eq_false_iff.mp calm
    have nodeCalm := (Bool.or_eq_false_iff.mp propertyCalm).2
    obtain ⟨shown, first, statements, keys, codes, keyed, nodeCompiled, othersCompiled, rfl, rfl, rfl⟩ :=
      parts_property compiled
    obtain ⟨writtenKey, hashed, hashes, plain⟩ := writtenKey_of_propertyKey keyWritten keyed
    have above := (becomes_of_compile node nodeCompiled).le_next
    have beyond : first.next ≤ next := (becomes_of_compileProperties properties false othersCompiled).le_next
    have head := means_compile node nodeWritten nodeCalm nodeCompiled ready (by omega)
    -- The reading adds to the entries at hand, so what is left to read is stated for all of them.
    have start (entries : Entries) :
        (readProperties locals scope (.property key node :: properties) entries).run b =
          (do
            let value ← node.read locals scope
            match (← get).key? shown.1 with
            | some hashed => readProperties locals scope properties (entries.set hashed shown.1 value)
            | none => throw (.fault .unhashable) : Reading Entries).run b := by
      have keyRead : (Reading.ask fun _ => key.writtenKey).run b = .ok (shown.1, b) := by
        rw [Reading.ask_run, writtenKey]
        rfl
      rw [readProperties]
      exact Reading.bind_run_ok keyRead
    simp only [Fragment.PropertiesMean, start]
    refine head.append (Nat.le_refl free) ?_ above fun _ failed _ => Reading.bind_run_error failed
    intro value after last further read passes yields
    have length := passes.agrees.room
    have tail := means_compileProperties properties othersWritten othersCalm othersCompiled
      (ready.pass passes) (by omega)
    have continues (entries : Entries) : (do
          let value ← node.read locals scope
          match (← get).key? shown.1 with
          | some hashed => readProperties locals scope properties (entries.set hashed shown.1 value)
          | none => throw (.fault .unhashable) : Reading Entries).run b =
        (readProperties locals scope properties (entries.set hashed shown.1 value)).run further := by
      rw [Reading.bind_run_ok read]
      simp only [hashes]
      rfl
    refine Run.Leads.mono tail ?_ ?_
    · rintro ending final ⟨members, furthest, others, rest, yield⟩
      refine ⟨(hashed, shown.1, value) :: members, furthest, fun entries => ?_, rest, ?_⟩
      · rw [continues, others]
        rfl
      · exact .cons hashes (plain _) (yields.mono beyond rest.agrees rest.left rest.right) yield
    · intro failure _ failed entries
      rw [continues, failed]

end

end Node

/-- Running a routine comes to the same as reading the tree that it was made from. -/
theorem Routine.leads_run_means (host : Host σ) {h : Heap} {body : Node} {routine : Routine}
    (made : (Node.program body).routine h = .ok routine) (written : body.isWritten)
    (calm : body.acts = false) {m : Machine σ} (closed : m.heap.IsClosed) {locals scope : Value}
    (below : locals.isBelow m.heap.size ∧ scope.isBelow m.heap.size) (parameter : Value) :
    (routine.run host locals scope parameter).Leads m
      (fun found last => ∃ value after, (body.read locals scope).run m.heap = .ok (value, after) ∧
        m.heap.Grows last.heap ∧ m.heap.Grows after ∧
          Heap.Alike m.heap.size last.heap after found value)
      fun failure _ => (body.read locals scope).run m.heap = .error failure := by
  obtain ⟨inner, bodyCompiled, rfl⟩ := Node.parts_routine made
  let start := Frame.start locals scope parameter inner.next
  have length : start.slots.length = inner.next := List.length_replicate
  have ready : start.Ready m.heap locals scope 0 m.heap m.heap := {
    branches := ⟨closed, .refl _, .refl _⟩
    below := below
    locals := rfl
    scope := rfl
    unused := fun slot _ room => List.getElem?_replicate_of_lt (length ▸ room) }
  have means : inner.Means host m.heap (body.read locals scope) start 0 m m.heap :=
    Node.means_compile body written calm bodyCompiled ready (Nat.le_of_eq length.symm)
  unfold Routine.run
  rw [Statement.runAll_append, bind_assoc]
  refine (Run.leads_bind _ _).mpr (means.imp ?_)
  rintro after last ⟨value, further, read, passes, yields⟩
  have stored : ((Statement.result inner.code).run host after).Leads last
      (fun ending final => last.heap.Grows final.heap ∧
        Heap.Alike m.heap.size final.heap further ending.result value) fun _ _ => False :=
    (yields after last (.refl _ _) (.refl _)).bind fun _ _ reached => reached
  have result : (Statement.runAll host after [.result inner.code]).Leads last
      (fun ending final => last.heap.Grows final.heap ∧
        Heap.Alike m.heap.size final.heap further ending.result value) fun _ _ => False :=
    stored.bind fun _ _ reached => reached
  refine (Run.leads_bind _ _).mpr (result.mono ?_ fun _ _ never => never.elim)
  rintro ending final ⟨grows, alike⟩
  exact ⟨value, further, read, passes.left.trans grows, passes.right, alike⟩

namespace Evaluator

/-- Evaluating an expression that neither calls nor assigns, against any locals and scope of a heap, comes to
the same as reading its tree directly. Both fail with the same error, or both have a value, and the values are
the same up to the arrays and objects that were built on the way. No container that was there has changed. -/
theorem run_means_tree {h : Heap} {body : Node} {text : Text} {evaluator : Evaluator}
    (made : ofTree h (.program body) text = .ok evaluator) (written : body.isWritten)
    (calm : body.acts = false) (host : Host σ) {heap : Heap} (closed : heap.IsClosed)
    {locals scope : Value} (localsBelow : locals.isBelow heap.size) (scopeBelow : scope.isBelow heap.size)
    (world : σ) :
    let ended := evaluator.outcome host .run locals scope heap world
    match (body.read locals scope).run heap with
    | .ok (value, after) => heap.Grows ended.2.heap ∧ heap.Grows after ∧
        ∃ found, ended.1 = .ok found ∧ Heap.Alike heap.size ended.2.heap after found value
    | .error failure => ended.1 = .error failure := by
  intro ended
  have below : locals.isBelow heap.size ∧ scope.isBelow heap.size := ⟨localsBelow, scopeBelow⟩
  obtain ⟨onValue, onFailure⟩ := Run.leads_iff.mp (Routine.leads_run_means host (m := ⟨heap, world, []⟩)
    (routines_of_ofTree made).1 written calm closed below .null)
  cases done : ended.1 with
  | ok found =>
    obtain ⟨value, after, read, left, right, alike⟩ := onValue found done
    rw [read]
    exact ⟨left, right, found, rfl, alike⟩
  | error failure =>
    rw [onFailure failure done]

/-- An item of an array that is built twice, since its code runs for the question and for the answer. -/
theorem run_means_tree_of_item :
    let body : Node := .array [.member (.array [.identifier (Text.of "a")]) (.literal (.int 0)) true,
      .member (.identifier (Text.of "a")) (.identifier (Text.of "b")) false]
    let heap : Heap := ⟨#[.mapping .plain (named [("a", .ref 1)]), .mapping .plain (named [("b", .int 1)])]⟩
    ∃ evaluator, ofTree Heap.empty (.program body) (Text.of "[[a][0], a.b]") = .ok evaluator ∧
      body.isWritten ∧ body.acts = false ∧ heap.IsClosed ∧ Value.null.isBelow heap.size ∧
      (Value.ref 0).isBelow heap.size ∧
      let ended := evaluator.outcome (Host.standard 1) .run .null (.ref 0) heap .start
      match (body.read .null (.ref 0)).run heap with
      | .ok (value, after) => heap.Grows ended.2.heap ∧ heap.Grows after ∧
          ∃ found, ended.1 = .ok found ∧ Heap.Alike heap.size ended.2.heap after found value
      | .error failure => ended.1 = .error failure := by
  intro body heap
  obtain ⟨evaluator, made⟩ : ∃ evaluator, ofTree Heap.empty (.program body) (Text.of "[[a][0], a.b]") =
      .ok evaluator := exists_ofTree (by decide +kernel)
  have closed : heap.IsClosed := by decide +kernel
  have localsBelow : Value.null.isBelow heap.size := rfl
  have scopeBelow : (Value.ref 0).isBelow heap.size := rfl
  exact ⟨evaluator, made, rfl, rfl, closed, localsBelow, scopeBelow,
    run_means_tree made rfl rfl (Host.standard 1) closed localsBelow scopeBelow .start⟩

end Evaluator

end GuardedExpr

import GuardedExpr.Proofs.Host.StandardLocality
import GuardedExpr.Proofs.Run.PairedRuns

/-!
What an expression does not mention does not matter. Code that comes to the scope by the names that it looks up alone
does the same on two scopes that have the same entries under these names.
-/

namespace GuardedExpr

open Run

variable {σ : Type} {pairing : Pairing} {host : Host σ} {f g : Frame}

structure Frame.Pairs (pairing : Pairing) (f g : Frame) : Prop where
  locals : pairing.Shared f.locals g.locals
  first : f.scope = .ref pairing.first
  second : g.scope = .ref pairing.second
  slots : g.slots = f.slots
  each : ∀ v ∈ f.slots, v.LiesIn pairing.region
  result : pairing.Shared f.result g.result

namespace Frame.Pairs

variable (frames : Frame.Pairs pairing f g)

include frames

theorem slot (index : Nat) : Run.Pairs pairing pairing.Shared (f.slot index : Run σ Value) (g.slot index) := by
  unfold Frame.slot
  rw [frames.slots]
  cases present : f.slots[index]? with
  | none => exact pairs_throw _
  | some value => exact pairs_pure ⟨rfl, frames.each value (List.mem_of_getElem? present)⟩

theorem setSlot (index : Nat) {v : Value} (lies : v.LiesIn pairing.region) :
    Run.Pairs pairing (Frame.Pairs pairing) (f.setSlot index v : Run σ Frame) (g.setSlot index v) := by
  unfold Frame.setSlot
  rw [frames.slots]
  split
  · refine pairs_bind (pairs_record rfl) fun _ _ _ => pairs_pure ?_
    refine ⟨frames.locals, frames.first, frames.second, rfl, fun w member => ?_, frames.result⟩
    rcases List.mem_or_eq_of_mem_set member with old | rfl
    · exact frames.each w old
    · exact lies
  · exact pairs_throw _

end Frame.Pairs

/-- The key of a selector is the same in both runs, and a fixed name is its own key. -/
theorem Selector.pairs_key (frames : Frame.Pairs pairing f g) (selector : Selector) :
    Run.Pairs pairing (fun v w => pairing.Shared v w ∧ ∀ name, selector = .name name → v = .text name)
      (selector.key f : Run σ Value) (selector.key g) := by
  cases selector with
  | name name =>
    refine pairs_pure ⟨⟨rfl, trivial⟩, ?_⟩
    rintro _ ⟨⟩
    rfl
  | slot index => exact pairs_mono (frames.slot index) fun _ _ shared => ⟨shared, nofun⟩

def Selector.Serves (pairing : Pairing) (selector : Selector) (v w : Value) : Prop :=
  pairing.Shared v w ∨
    ∃ name, selector = .name name ∧ pairing.names name ∧ v = .ref pairing.first ∧ w = .ref pairing.second

theorem Selector.Serves.located {selector : Selector} {v w key : Value} (serves : selector.Serves pairing v w)
    (is : ∀ name, selector = .name name → key = .text name) : pairing.Located key v w := by
  rcases serves with ⟨rfl, lies⟩ | ⟨name, same, named, rfl, rfl⟩
  · exact .inside lies
  · exact .scope (is name same) named

namespace Code

/-- The owner of a name is the locals in both runs, or the one scope in the one and the other in the other. -/
theorem pairs_owner (frames : Frame.Pairs pairing f g) {name : Text} (named : pairing.names name) :
    Run.Pairs pairing ((Selector.name name).Serves pairing) ((Code.owner name).run host f)
      ((Code.owner name).run host g) := by
  obtain ⟨same, lies⟩ := frames.locals
  simp only [Code.run, same]
  refine pairs_bind (pairs_has lies name) ?_
  rintro found _ rfl
  split
  · exact pairs_pure (.inl ⟨rfl, lies⟩)
  · exact pairs_pure (.inr ⟨name, rfl, named, frames.first, frames.second⟩)

theorem pairs_locates (frames : Frame.Pairs pairing f g) {container : Code} {selector : Selector}
    (locates : container.Locates pairing.allows selector)
    (inner : container.IsDiscreet pairing.allows →
      Run.Pairs pairing pairing.Shared (container.run host f) (container.run host g)) :
    Run.Pairs pairing (selector.Serves pairing) (container.run host f) (container.run host g) := by
  cases locates with
  | inside discreet => exact pairs_mono (inner discreet) fun _ _ shared => .inl shared
  | scope looked => exact pairs_pure (.inr ⟨_, rfl, looked, frames.first, frames.second⟩)
  | owner looked => exact pairs_owner frames looked

mutual

theorem run_pairs (isLocal : host.IsLocal) (frames : Frame.Pairs pairing f g) : (code : Code) →
    code.IsDiscreet pairing.allows → Run.Pairs pairing pairing.Shared (code.run host f) (code.run host g)
  | .locals, _ => pairs_pure frames.locals
  | .slot index, _ => frames.slot index
  | .literal value shown, discreet => by
    cases discreet with
    | literal scalar => exact pairs_pure ⟨rfl, Value.liesIn_of_isScalar scalar _⟩
  | .array items, discreet => by
    cases discreet with
    | array each =>
      refine pairs_bind (runAll_pairs isLocal frames items each) ?_
      rintro _ values ⟨rfl, lie⟩
      exact pairs_bind (pairs_record rfl) fun _ _ _ => pairs_alloc lie trivial
  | .object keys values, discreet => by
    cases discreet with
    | object scalars each =>
      refine pairs_bind (runEntries_pairs isLocal frames keys values scalars each (List.forall_mem_nil _)) ?_
      rintro _ entries ⟨rfl, lie⟩
      exact pairs_alloc lie trivial
  | .member container selector, discreet => by
    cases discreet with
    | member locates =>
      refine pairs_bind (pairs_locates frames locates fun inner => run_pairs isLocal frames container inner) ?_
      intro v w serves
      refine pairs_bind (selector.pairs_key frames) ?_
      rintro _ word ⟨⟨rfl, keyLies⟩, is⟩
      exact pairs_read (serves.located is) keyLies selector
  | .guarded code, discreet => by
    cases discreet with
    | guarded inner =>
      refine pairs_bind (run_pairs isLocal frames code inner) ?_
      rintro _ v ⟨rfl, lies⟩
      exact pairs_guarded lies
  | .call callee arguments, discreet => by
    cases discreet with
    | call _ each =>
      refine pairs_bind (frames.slot callee) ?_
      rintro _ target ⟨rfl, lies⟩
      refine pairs_bind (pairs_isTruthy lies) ?_
      rintro truth _ rfl
      split
      · exact pairs_pure ⟨rfl, trivial⟩
      · refine pairs_bind pairs_get fun m n here => ?_
        have common := here.heaps.common
        dsimp only
        rw [common.isCallable lies, common.describe lies]
        split
        · exact pairs_throw _
        · refine pairs_bind (runAll_pairs isLocal frames arguments each) ?_
          rintro _ values ⟨rfl, lie⟩
          refine pairs_bind (pairs_invoke isLocal callee lies lie) ?_
          rintro _ answer ⟨rfl, inside⟩
          exact pairs_guarded inside
  | .store site container selector value, discreet => by
    cases discreet with
    | store locates stored =>
      refine pairs_bind (pairs_locates frames locates fun inner => run_pairs isLocal frames container inner) ?_
      intro v w serves
      refine pairs_bind (selector.pairs_key frames) ?_
      rintro _ word ⟨⟨rfl, keyLies⟩, is⟩
      refine pairs_bind (run_pairs isLocal frames value stored) ?_
      rintro _ written ⟨rfl, lies⟩
      exact pairs_bind (pairs_write (serves.located is) keyLies lies rfl) fun _ _ _ => pairs_pure ⟨rfl, lies⟩

theorem runAll_pairs (isLocal : host.IsLocal) (frames : Frame.Pairs pairing f g) : (codes : List Code) →
    (∀ code ∈ codes, code.IsDiscreet pairing.allows) →
    Run.Pairs pairing (fun values others => others = values ∧ ∀ v ∈ values, v.LiesIn pairing.region)
      (runAll host f codes) (runAll host g codes)
  | [], _ => pairs_pure ⟨rfl, List.forall_mem_nil _⟩
  | code :: codes, each => by
    obtain ⟨head, tail⟩ := List.forall_mem_cons.mp each
    refine pairs_bind (run_pairs isLocal frames code head) ?_
    rintro _ v ⟨rfl, lies⟩
    refine pairs_bind (runAll_pairs isLocal frames codes tail) ?_
    rintro _ values ⟨rfl, lie⟩
    exact pairs_pure ⟨rfl, List.forall_mem_cons.mpr ⟨lies, lie⟩⟩

theorem runEntries_pairs (isLocal : host.IsLocal) (frames : Frame.Pairs pairing f g) :
    (keys : List (Value × Text)) → (codes : List Code) → (∀ key ∈ keys, key.1.isScalar) →
    (∀ code ∈ codes, code.IsDiscreet pairing.allows) → ∀ {entries : Entries}, entries.LieIn pairing.region →
    Run.Pairs pairing (fun entries others => others = entries ∧ entries.LieIn pairing.region)
      (runEntries host f keys codes entries) (runEntries host g keys codes entries)
  | key :: keys, code :: codes, scalars, each, entries, lie => by
    obtain ⟨scalar, others⟩ := List.forall_mem_cons.mp scalars
    obtain ⟨head, tail⟩ := List.forall_mem_cons.mp each
    have keyLies := Value.liesIn_of_isScalar scalar pairing.region
    refine pairs_bind (run_pairs isLocal frames code head) ?_
    rintro _ v ⟨rfl, lies⟩
    refine pairs_bind (pairs_record rfl) fun _ _ _ => pairs_bind pairs_get fun m n here => ?_
    rw [here.heaps.common.key? keyLies]
    split
    · next hashed found =>
      exact runEntries_pairs isLocal frames keys codes others tail (lie.set keyLies lies hashed)
    · exact pairs_throw _
  | [], [], _, _, _, lie | [], _ :: _, _, _, _, lie | _ :: _, [], _, _, _, lie => by
    simp only [runEntries]
    exact pairs_pure ⟨rfl, lie⟩

end

end Code

theorem Question.run_pairs (isLocal : host.IsLocal) (frames : Frame.Pairs pairing f g) {question : Question}
    (discreet : question.IsDiscreet pairing.allows) :
    Run.Pairs pairing (fun v w => w = v) (question.run host f) (question.run host g) := by
  cases discreet with
  | has inner name =>
    refine pairs_bind (Code.run_pairs isLocal frames _ inner) ?_
    rintro _ v ⟨rfl, lies⟩
    exact pairs_has lies name
  | holds inner =>
    refine pairs_bind (Code.run_pairs isLocal frames _ inner) ?_
    rintro _ v ⟨rfl, lies⟩
    exact pairs_isTruthy lies
  | @hasName name looked =>
    change Run.Pairs pairing _ (Run.has f.scope name) (Run.has g.scope name)
    rw [frames.first, frames.second]
    exact pairs_has_scope looked
  | holdsScope =>
    change Run.Pairs pairing _ (ask fun h => h.isTruthy f.scope) (ask fun h => h.isTruthy g.scope)
    rw [frames.first, frames.second]
    exact pairs_isTruthy_scope

theorem Condition.runAll_pairs (isLocal : host.IsLocal) (frames : Frame.Pairs pairing f g)
    {conditions : List Condition} (asked : ∀ condition ∈ conditions, condition.question.IsDiscreet pairing.allows) :
    Run.Pairs pairing (fun v w => w = v) (runAll host f conditions) (runAll host g conditions) := by
  induction conditions with
  | nil => exact pairs_pure rfl
  | cons condition conditions ih =>
    obtain ⟨head, tail⟩ := List.forall_mem_cons.mp asked
    have first : Run.Pairs pairing (fun v w => w = v) (condition.run host f) (condition.run host g) := by
      refine pairs_bind (Question.run_pairs isLocal frames head) ?_
      rintro _ v rfl
      exact pairs_pure rfl
    refine pairs_bind first ?_
    rintro _ v rfl
    split
    · exact ih tail
    · exact pairs_pure rfl

theorem Action.run_pairs (isLocal : host.IsLocal) (frames : Frame.Pairs pairing f g) {action : Action}
    (discreet : action.IsDiscreet pairing.allows) :
    Run.Pairs pairing (Frame.Pairs pairing) (action.run host f) (action.run host g) := by
  cases discreet with
  | assign slot inner =>
    refine pairs_bind (Code.run_pairs isLocal frames _ inner) ?_
    rintro _ v ⟨rfl, lies⟩
    exact frames.setSlot slot lies
  | @create container selector locates =>
    refine pairs_bind (selector.pairs_key frames) ?_
    rintro _ word ⟨⟨rfl, keyLies⟩, is⟩
    refine pairs_bind (Code.pairs_locates frames locates (Code.run_pairs isLocal frames container)) ?_
    intro v w serves
    exact pairs_bind (pairs_create (serves.located is) keyLies selector) fun _ _ _ => pairs_pure frames

theorem Statement.run_pairs (isLocal : host.IsLocal) (frames : Frame.Pairs pairing f g) {statement : Statement}
    (discreet : statement.IsDiscreet pairing.allows) :
    Run.Pairs pairing (Frame.Pairs pairing) (statement.run host f) (statement.run host g) := by
  cases discreet with
  | perform inner => exact Action.run_pairs isLocal frames inner
  | guardedBy asked inner =>
    refine pairs_bind (Condition.runAll_pairs isLocal frames asked) ?_
    rintro _ v rfl
    split
    · exact Action.run_pairs isLocal frames inner
    · exact pairs_pure frames
  | checkObject inner =>
    refine pairs_bind (Code.run_pairs isLocal frames _ inner) ?_
    rintro _ v ⟨rfl, lies⟩
    exact pairs_bind (pairs_guarded lies) fun _ _ _ => pairs_pure frames
  | checkOwner looked received =>
    refine pairs_bind (Code.pairs_owner frames looked) ?_
    rintro v w (⟨rfl, lies⟩ | ⟨name, _, _, rfl, rfl⟩)
    · exact pairs_bind (pairs_guarded lies) fun _ _ _ => pairs_pure frames
    · exact pairs_bind (pairs_guarded_scope received) fun _ _ _ => pairs_pure frames
  | checkName slot =>
    refine pairs_bind (frames.slot slot) ?_
    rintro _ key ⟨rfl, _⟩
    exact pairs_bind (R := fun _ _ => True) (pairs_answer fun _ _ => trivial) fun _ _ _ =>
      pairs_bind (pairs_record rfl) fun _ _ _ => pairs_pure frames
  | checkFunction slot =>
    refine pairs_bind (frames.slot slot) ?_
    rintro _ callee ⟨rfl, lies⟩
    refine pairs_bind (R := fun _ _ => True) (pairs_ask fun a b heaps => ?_) fun _ _ _ =>
      pairs_bind (pairs_record rfl) fun _ _ _ => pairs_pure frames
    rw [heaps.common.function heaps.common.size lies]
    exact .inl (sameEnd_of_eq fun _ _ => trivial)
  | result inner =>
    refine pairs_bind (Code.run_pairs isLocal frames _ inner) ?_
    rintro _ v ⟨rfl, lies⟩
    exact pairs_pure ⟨frames.locals, frames.first, frames.second, frames.slots, frames.each, rfl, lies⟩

theorem Statement.runAll_pairs (isLocal : host.IsLocal) (frames : Frame.Pairs pairing f g) {statements : List Statement}
    (discreet : AreDiscreet pairing.allows statements) :
    Run.Pairs pairing (Frame.Pairs pairing) (runAll host f statements) (runAll host g statements) := by
  induction statements generalizing f g with
  | nil => exact pairs_pure frames
  | cons statement statements ih =>
    obtain ⟨head, tail⟩ := List.forall_mem_cons.mp discreet
    exact pairs_bind (statement.run_pairs isLocal frames head) fun _ _ later => ih later tail

private theorem Frame.pairs_start {locals : Value} (lies : locals.LiesIn pairing.region)
    (slots : Nat) :
    Frame.Pairs pairing (.start locals (.ref pairing.first) .null slots)
      (.start locals (.ref pairing.second) .null slots) where
  locals := ⟨rfl, lies⟩
  first := rfl
  second := rfl
  slots := rfl
  each _ member := (List.mem_replicate.mp member).2 ▸ trivial
  result := ⟨rfl, trivial⟩

theorem Routine.run_pairs (isLocal : host.IsLocal) {routine : Routine}
    (discreet : Statement.AreDiscreet pairing.allows routine.statements) {locals : Value}
    (lies : locals.LiesIn pairing.region) :
    Run.Pairs pairing pairing.Shared (routine.run host locals (.ref pairing.first) .null)
      (routine.run host locals (.ref pairing.second) .null) :=
  pairs_bind (Statement.runAll_pairs isLocal (Frame.pairs_start lies routine.slots) discreet) fun _ _ last =>
    pairs_pure last.result

namespace Evaluator

/-- Two runs on two scopes have the same value or the same error and have made the same calls of the host, and leave
all containers but the scopes alike. -/
structure EndAlike (one other : Ref) (first second : Except Error Value × Machine σ) : Prop where
  outcome : second.1 = first.1
  picture : ∀ value, first.1 = .ok value → second.2.heap.picture value = first.2.heap.picture value
  calls : second.2.calls = first.2.calls
  world : second.2.world = first.2.world
  cells : ∀ r, r ≠ one → r ≠ other → second.2.heap.cell r = first.2.heap.cell r

/-- What an expression does not mention does not matter. An expression without `this` is run against two scopes that
have the same under the names that it looks up, where neither the locals nor these values lead to a scope, with a host
that is local. Both runs end alike, or the guard of objects refuses a scope in one of them: as the receiver of a call
under a name, or since its kind has no end. Where the scopes are of one type and have the same under the names that tell
what an object is taken for, both runs end alike in any case. -/
theorem ignores_unmentioned {h : Heap} {body : Node} {text : Text} {evaluator : Evaluator}
    (made : ofTree h (.program body) text = .ok evaluator) (written : body.isWritten)
    (withoutThis : .whole ∉ body.scopeUses) (isLocal : host.IsLocal) {heap : Heap} {region : Ref → Prop}
    (whole : heap.IsRegion region) {locals : Value} (localsLie : locals.LiesIn region) {one other : Ref}
    (outside : ¬ region one ∧ ¬ region other) {kind kind' : MappingKind} {entries others : Entries}
    (first : heap.cell one = .mapping kind entries) (second : heap.cell other = .mapping kind' others)
    (writable : kind ≠ .readOnly ∧ kind' ≠ .readOnly)
    (same : ∀ name, .name name ∈ body.scopeUses → Entries.Share region entries others name) (world : σ) :
    let left := evaluator.outcome host .run locals (.ref one) heap world
    let right := evaluator.outcome host .run locals (.ref other) heap world
    EndAlike one other left right ∨
      ¬ (kind' = kind ∧ ∀ name ∈ Heap.shapeNames, Entries.Share region entries others name) ∧
        (left.2.heap.Stops one (.receiver ∈ body.scopeUses) left.1 ∨
          right.2.heap.Stops other (.receiver ∈ body.scopeUses) right.1) := by
  intro left right
  let alike := kind' = kind ∧ ∀ name ∈ Heap.shapeNames, Entries.Share region entries others name
  let pairing : Pairing :=
    { region, base := heap, first := one, second := other
      names := fun name => .name name ∈ body.scopeUses ∨ alike ∧ name ∈ Heap.shapeNames
      alike, received := .receiver ∈ body.scopeUses }
  have matched : pairing.Matched kind kind' entries others :=
    { writable
      share := fun name named => named.elim (same name) fun shaped => shaped.1.2 name shaped.2
      kinds := fun agreed => agreed.1
      shape := fun agreed _ shaped => .inr ⟨agreed, shaped⟩ }
  have heaps : pairing.Heaps heap heap :=
    ⟨whole.common, outside, ⟨kind, kind', entries, others, first, second, matched⟩, fun _ _ _ => rfl, fun _ _ _ => rfl⟩
  obtain ⟨inner, compiled, routine⟩ := Node.parts_routine (routines_of_ofTree made).1
  have allowed : ∀ use ∈ body.scopeUses, pairing.allows use := by
    intro use member
    cases use with
    | whole => exact absurd member withoutThis
    | name name => exact .inl member
    | receiver => exact member
  have discreet := (Node.becomes_of_compile body compiled).isDiscreet written allowed id
  have statements : Statement.AreDiscreet pairing.allows evaluator.routine.statements := by
    rw [routine]
    exact discreet.statements.append (List.forall_mem_singleton.mpr (.result discreet.code))
  have ends := Routine.run_pairs isLocal statements localsLie ⟨heap, world, []⟩ ⟨heap, world, []⟩ ⟨heaps, rfl, rfl⟩
  rcases ends with ⟨outcomes, here⟩ | stopped
  · obtain ⟨equal, lies⟩ := Pairing.eq_of_sameEnd outcomes
    have picture (value : Value) (is : left.1 = .ok value) :=
      here.heaps.common.picture here.heaps.common.size (lies value is)
    exact .inl ⟨equal, picture, here.calls, here.world, fun r one other => here.heaps.cell one other⟩
  · exact .inr stopped

theorem share_of_found {region : Ref → Prop} {entries others : Entries} {name : Text} (found : Option Value)
    (left : entries.find? [.text name] = found) (right : others.find? [.text name] = found)
    (lies : ∀ value ∈ found, value.LiesIn region) : Entries.Share region entries others name :=
  ⟨right.trans left.symm, fun value held => lies value (left.symm.trans held)⟩

def twins : Heap :=
  ⟨#[.mapping .plain (named [("f", .ref 2), ("a", .int 1), ("c", .int 7)]),
    .mapping .plain (named [("f", .ref 2), ("a", .int 1), ("d", .ref 0)]), .function (Text.of "f") .collect []]⟩

theorem isRegion_twins : twins.IsRegion fun r => r ≠ 0 ∧ r ≠ 1 := by
  have other (r : Ref) (lies : r ≠ 0 ∧ r ≠ 1) : twins.cell r = .function (Text.of "f") .collect [] ∨
      twins.cell r = .module [] := by
    match r with
    | 0 => exact absurd rfl lies.1
    | 1 => exact absurd rfl lies.2
    | 2 => exact .inl rfl
    | r + 3 => exact .inr (Heap.cell_outside _ (Nat.le_add_left 3 r))
  refine ⟨fun r lies => ?_, fun r lies => ?_, fun r beyond => ?_⟩
  · rcases other r lies with is | is <;> rw [is] <;> exact List.forall_mem_nil _
  · rcases other r lies with is | is <;> rw [is] <;> trivial
  · have size : 3 ≤ r := beyond
    change r ≠ 0 ∧ r ≠ 1
    omega

/-- The result of a call is put into both scopes. -/
theorem ignores_unmentioned_in_call :
    let body : Node := .assignment (.identifier (Text.of "b"))
      (.call (.identifier (Text.of "f")) [.identifier (Text.of "a")])
    let entries := named [("f", .ref 2), ("a", .int 1), ("c", .int 7)]
    let others := named [("f", .ref 2), ("a", .int 1), ("d", .ref 0)]
    let region : Ref → Prop := fun r => r ≠ 0 ∧ r ≠ 1
    ∃ evaluator, ofTree Heap.empty (.program body) (Text.of "b = f(a)") = .ok evaluator ∧ body.isWritten ∧
      .whole ∉ body.scopeUses ∧ (Host.standard 1).IsLocal ∧ twins.IsRegion region ∧ Value.null.LiesIn region ∧
      (¬ region 0 ∧ ¬ region 1) ∧ twins.cell 0 = .mapping .plain entries ∧ twins.cell 1 = .mapping .plain others ∧
      (∀ name, .name name ∈ body.scopeUses → Entries.Share region entries others name) ∧
      let left := evaluator.outcome (Host.standard 1) .run .null (.ref 0) twins .start
      let right := evaluator.outcome (Host.standard 1) .run .null (.ref 1) twins .start
      left.1 = .ok (.ref 4) ∧ EndAlike 0 1 left right := by
  intro body entries others region
  have ran : (ofTree Heap.empty (.program body) (Text.of "b = f(a)")).toOption.any fun evaluator =>
      decide ((evaluator.outcome (Host.standard 1) .run .null (.ref 0) twins .start).1 = .ok (.ref 4)) := by
    decide +kernel
  obtain ⟨evaluator, made, ran⟩ := exists_eq_ok ran
  have same : ∀ name, .name name ∈ body.scopeUses → Entries.Share region entries others name := by
    intro name member
    have names : name = Text.of "b" ∨ name = Text.of "f" ∨ name = Text.of "a" := by
      simpa [body, Node.scopeUses, Node.allScopeUses, Node.receiverUses] using member
    rcases names with rfl | rfl | rfl
    · exact share_of_found none (by decide +kernel) (by decide +kernel) nofun
    · refine share_of_found (some (.ref 2)) (by decide +kernel) (by decide +kernel) ?_
      rintro value ⟨⟩
      exact ⟨by decide, by decide⟩
    · refine share_of_found (some (.int 1)) (by decide +kernel) (by decide +kernel) ?_
      rintro value ⟨⟩
      trivial
  have withoutThis : .whole ∉ body.scopeUses := by decide +kernel
  have localsLie : Value.null.LiesIn region := trivial
  have outside : ¬ region 0 ∧ ¬ region 1 := ⟨fun lies => lies.1 rfl, fun lies => lies.2 rfl⟩
  -- Neither scope has any of the entries that tell what an object is taken for.
  have absent : ∀ name ∈ Heap.shapeNames, entries.find? [.text name] = none ∧ others.find? [.text name] = none := by
    decide +kernel
  have alike (name : Text) (shaped : name ∈ Heap.shapeNames) : Entries.Share region entries others name :=
    share_of_found none (absent name shaped).1 (absent name shaped).2 nofun
  have either := ignores_unmentioned made rfl withoutThis (Host.isLocal_standard 1) isRegion_twins localsLie outside rfl
    rfl ⟨nofun, nofun⟩ same .start
  exact ⟨evaluator, made, rfl, withoutThis, Host.isLocal_standard 1, isRegion_twins, localsLie, outside, rfl, rfl, same,
    of_decide_eq_true ran, either.resolve_right fun unlike => unlike.1 ⟨rfl, alike⟩⟩

def HasOutcomes (source : Text) (locals : Value) (heap : Heap) (first second : Except Error Value) : Prop :=
  ∃ body leftover evaluator entries others, parse true 0 source = .ok (.program body, leftover) ∧
    ofTree Heap.empty (.program body) source = .ok evaluator ∧ .whole ∉ body.scopeUses ∧
    heap.cell 0 = .mapping .plain entries ∧ heap.cell 1 = .mapping .plain others ∧
    (∀ name, .name name ∈ body.scopeUses → others.find? [.text name] = entries.find? [.text name]) ∧
    (evaluator.outcome (Host.standard 1) .run locals (.ref 0) heap .start).1 = first ∧
    (evaluator.outcome (Host.standard 1) .run locals (.ref 1) heap .start).1 = second

theorem hasOutcomes_of_check {source : Text} {locals : Value} {heap : Heap} {entries others : Entries}
    {first second : Except Error Value} (one : heap.cell 0 = .mapping .plain entries)
    (other : heap.cell 1 = .mapping .plain others)
    (checked : (parse true 0 source).toOption.any fun found =>
      (ofTree Heap.empty found.1 source).toOption.any fun evaluator =>
        found.1.scopeUses.all (fun use => match use with
          | .whole => false
          | .name name => others.find? [.text name] = entries.find? [.text name]
          | .receiver => true) &&
        decide ((evaluator.outcome (Host.standard 1) .run locals (.ref 0) heap .start).1 = first) &&
        decide ((evaluator.outcome (Host.standard 1) .run locals (.ref 1) heap .start).1 = second)) :
    HasOutcomes source locals heap first second := by
  obtain ⟨⟨tree, leftover⟩, read, checked⟩ := exists_eq_ok checked
  obtain ⟨body, rfl, -⟩ := isWritten_of_parse read
  obtain ⟨evaluator, made, checked⟩ := exists_eq_ok checked
  simp only [Bool.and_eq_true, List.all_eq_true, decide_eq_true_eq] at checked
  obtain ⟨⟨uses, left⟩, right⟩ := checked
  have withoutThis : .whole ∉ body.scopeUses := fun whole => Bool.false_ne_true (uses .whole whole)
  have same (name : Text) (member : .name name ∈ body.scopeUses) :
      others.find? [.text name] = entries.find? [.text name] := of_decide_eq_true (uses (.name name) member)
  exact ⟨body, leftover, evaluator, entries, others, read, made, withoutThis, one, other, same, left, right⟩

/-- What an expression does not mention matters to it in two ways. A scope that has children and the name of a node is
refused as the receiver of a call under a name. And where a value that is looked up leads to a scope, or the locals do,
what is written there is found under a name that only that scope has then. -/
theorem depends_on_unmentioned :
    (Host.standard 1).IsLocal ∧
      HasOutcomes (Text.of "f()") .null
        ⟨#[.mapping .plain (named [("f", .ref 2)]),
          .mapping .plain (named [("f", .ref 2), ("children", .int 1), ("nodeName", .text (Text.of "x"))]),
          .function (Text.of "f") (.constant (.int 1)) []]⟩
        (.ok (.int 1)) (.error (.disallowedObject .documentNode)) ∧
      HasOutcomes (Text.of "[f(a.b = 5).c, b][1]") .null
        ⟨#[.mapping .plain (named [("f", .ref 2), ("a", .ref 0)]),
          .mapping .plain (named [("f", .ref 2), ("a", .ref 0)]), .function (Text.of "f") .first []]⟩
        (.ok (.int 5)) (.ok .null) ∧
      HasOutcomes (Text.of "[f(a.b = 5).c, b][1]") (.ref 3)
        ⟨#[.mapping .plain (named [("f", .ref 2)]), .mapping .plain (named [("f", .ref 2)]),
          .function (Text.of "f") .first [], .mapping .plain (named [("a", .ref 0)])]⟩
        (.ok (.int 5)) (.ok .null) :=
  ⟨Host.isLocal_standard 1, hasOutcomes_of_check rfl rfl (by decide +kernel),
    hasOutcomes_of_check rfl rfl (by decide +kernel), hasOutcomes_of_check rfl rfl (by decide +kernel)⟩

end Evaluator

end GuardedExpr

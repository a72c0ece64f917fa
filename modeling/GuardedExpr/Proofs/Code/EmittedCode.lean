import GuardedExpr.Code.Emission
import GuardedExpr.Proofs.Code.SlotOrder
import Mathlib.Data.List.Range

/-!
What an instance of the compiler emits. Whatever it has compiled before, it makes of a tree what the tree is compiled
to, and it fails where that fails. Its statements fill a slot only where they are emitted for the node that the slot was
declared for.
-/

namespace GuardedExpr

namespace Emission

/-- The slots are declared in order under their names, and each one is filled only by statements that were emitted for
the node that it was declared for. -/
structure IsSound (e : Emission) : Prop where
  names : e.names.map Prod.snd = (List.range e.next).map slotName
  owned : ∀ emitted ∈ e.body, ∀ slot, emitted.2.filled? = some slot → (e.names[slot]?).map Prod.fst = some emitted.1

private theorem isSound_fresh : fresh.IsSound :=
  ⟨rfl, nofun⟩

variable {e middle after : Emission} {statements more : List Statement} {here : Address} {slot : Nat}

theorem IsSound.length (sound : e.IsSound) : e.names.length = e.next := by
  have lengths := congrArg List.length sound.names
  rwa [List.length_map, List.length_map, List.length_range] at lengths

def IsFor (e : Emission) (slot : Nat) (here : Address) : Prop :=
  (e.names[slot]?).map Prod.fst = some here

structure Emits (e : Emission) (statements : List Statement) (next : Nat) (after : Emission) : Prop where
  sound : after.IsSound
  names : e.names <+: after.names
  body : after.body.map Prod.snd = e.body.map Prod.snd ++ statements
  next : after.next = next

theorem IsSound.emits (sound : e.IsSound) : e.Emits [] e.next e :=
  ⟨sound, List.prefix_rfl, (List.append_nil _).symm, rfl⟩

theorem Emits.trans {next last : Nat} (first : e.Emits statements next middle)
    (second : middle.Emits more last after) : e.Emits (statements ++ more) last after :=
  ⟨second.sound, first.names.trans second.names, by rw [second.body, first.body, List.append_assoc], second.next⟩

theorem IsFor.later (is_for : e.IsFor slot here) (grown : e.names <+: after.names) : after.IsFor slot here := by
  obtain ⟨more, same⟩ := grown
  unfold IsFor at *
  cases found : e.names[slot]? with
  | none =>
    rw [found] at is_for
    cases is_for
  | some declared =>
    obtain ⟨inside, _⟩ := List.getElem?_eq_some_iff.mp found
    rw [← same, List.getElem?_append_left inside]
    exact is_for

end Emission

namespace Emitter

open Emission

variable {α β γ δ : Type} {e middle after : Emission} {statements more : List Statement} {here : Address}
  {slot next : Nat}

/-- A part of the compiler follows a compilation: where that gives something, so does the part, and where it fails, the
part fails for the same reason. -/
def Follows (part : Emitter α) (e : Emission) (compiled : Except Error β) (good : α → β → Emission → Prop) : Prop :=
  match compiled with
  | .ok result => ∃ value after, part.run.run e = (.ok value, after) ∧ good value result after
  | .error failure => (part.run.run e).1 = .error failure

variable {part : Emitter α} {compiled : Except Error β} {good : α → β → Emission → Prop}

theorem follows_pure {value : α} {result : β} (holds : good value result e) :
    Follows (pure value) e (.ok result) good :=
  ⟨value, e, rfl, holds⟩

theorem follows_throw (failure : Error) : Follows (throw failure : Emitter α) e (.error failure) good :=
  rfl

theorem Follows.bind {next : α → Emitter γ} {rest : β → Except Error δ} {last : γ → δ → Emission → Prop}
    (follows : part.Follows e compiled good)
    (then_ : ∀ value result after, good value result after → (next value).Follows after (rest result) last) :
    (part >>= next).Follows e (compiled >>= rest) last := by
  cases compiled with
  | ok result =>
    obtain ⟨value, after, run, holds⟩ := follows
    have further : Follows (next value) after (rest result) last := then_ value result after holds
    have same : (part >>= next).run.run e = (next value).run.run after := by
      rw [ExceptT.run_bind, StateT.run_bind, run]
      rfl
    change Follows _ e (rest result) last
    unfold Follows at *
    rw [same]
    exact further
  | error failure =>
    change (part.run.run e).1 = .error failure at follows
    change ((part >>= next).run.run e).1 = .error failure
    rw [ExceptT.run_bind, StateT.run_bind]
    rcases run : part.run.run e with ⟨outcome, after⟩
    rw [run] at follows
    cases follows
    rfl

theorem follows_after {next : α → Emitter γ} {value : α} {last : γ → β → Emission → Prop}
    (run : part.run.run e = (.ok value, middle)) (then_ : (next value).Follows middle compiled last) :
    (part >>= next).Follows e compiled last := by
  have same : (part >>= next).run.run e = (next value).run.run middle := by
    rw [ExceptT.run_bind, StateT.run_bind, run]
    rfl
  unfold Follows at *
  rw [same]
  exact then_

theorem follows_check (outcome : Except Error β) :
    (check outcome).Follows e outcome fun value result after => value = result ∧ after = e := by
  cases outcome with
  | ok value => exact ⟨value, e, rfl, rfl, rfl⟩
  | error failure => rfl

/-! The steps of the compiler keep its state sound. -/

private theorem run_emit (here : Address) (statements : List Statement) (e : Emission) :
    (emit here statements).run.run e =
      (.ok (), { e with body := e.body ++ statements.map fun statement => (here, statement) }) :=
  rfl

private theorem emits_emit (sound : e.IsSound)
    (own : ∀ statement ∈ statements, ∀ slot, statement.filled? = some slot → e.IsFor slot here) :
    e.Emits statements e.next { e with body := e.body ++ statements.map fun statement => (here, statement) } := by
  refine ⟨⟨sound.names, fun emitted member slot fills => ?_⟩, List.prefix_rfl, ?_, rfl⟩
  · rcases List.mem_append.mp member with old | new
    · exact sound.owned emitted old slot fills
    · obtain ⟨statement, inside, rfl⟩ := List.mem_map.mp new
      exact own statement inside slot fills
  · rw [List.map_append, List.map_map, List.append_cancel_left_eq]
    exact List.map_id' statements

private theorem run_allocate (here : Address) (e : Emission) :
    (allocate here).run.run e =
      (.ok e.next, { e with names := e.names ++ [(here, slotName e.next)], next := e.next + 1 }) :=
  rfl

theorem emits_allocate (here : Address) (sound : e.IsSound) :
    let after := { e with names := e.names ++ [(here, slotName e.next)], next := e.next + 1 }
    e.Emits [] (e.next + 1) after ∧ after.IsFor e.next here := by
  have grown : e.names <+: e.names ++ [(here, slotName e.next)] := List.prefix_append _ _
  refine ⟨⟨⟨?_, fun emitted member slot fills => ?_⟩, grown, (List.append_nil _).symm, rfl⟩, ?_⟩
  · rw [List.map_append, sound.names, List.range_succ, List.map_append]
    rfl
  · have before : e.IsFor slot emitted.1 := sound.owned emitted member slot fills
    exact before.later grown
  · change ((e.names ++ [(here, slotName e.next)])[e.next]?).map Prod.fst = some here
    rw [← sound.length, List.getElem?_concat_length]
    rfl

/-- Statements that are emitted for a node which has declared the slots that they fill. -/
theorem follows_emit {next : Unit → Emitter γ} {last : γ → β → Emission → Prop} (sound : e.IsSound)
    (own : ∀ statement ∈ statements, ∀ slot, statement.filled? = some slot → e.IsFor slot here)
    (then_ : ∀ after, e.Emits statements e.next after → (next ()).Follows after compiled last) :
    (emit here statements >>= next).Follows e compiled last :=
  follows_after (run_emit here statements e) (then_ _ (emits_emit sound own))

theorem follows_read {next : Unit → Emitter γ} {last : γ → β → Emission → Prop} (here : Address) {statement : Statement}
    (sound : e.IsSound) (reads : statement.filled? = none)
    (then_ : ∀ after, e.Emits [statement] e.next after → (next ()).Follows after compiled last) :
    (emit here [statement] >>= next).Follows e compiled last :=
  follows_emit sound (List.forall_mem_singleton.mpr fun _ fills => by simp [reads] at fills) then_

theorem follows_allocate {next : Nat → Emitter γ} {last : γ → β → Emission → Prop} (here : Address)
    (sound : e.IsSound)
    (then_ : ∀ after, e.Emits [] (e.next + 1) after → after.IsFor e.next here →
      (next e.next).Follows after compiled last) : (allocate here >>= next).Follows e compiled last :=
  follows_after (run_allocate here e) (then_ _ (emits_allocate here sound).1 (emits_allocate here sound).2)

theorem follows_spill {next : Nat → Emitter γ} {last : γ → β → Emission → Prop} (here : Address) (code : Code)
    (sound : e.IsSound)
    (then_ : ∀ after, e.Emits [.perform (.assign e.next code)] (e.next + 1) after →
      (next e.next).Follows after compiled last) : (spill here code >>= next).Follows e compiled last := by
  unfold spill
  simp only [bind_assoc, pure_bind]
  refine follows_allocate here sound fun middle allocated is_for => ?_
  refine follows_emit allocated.sound ?_ fun after emitted => ?_
  · intro statement member slot fills
    cases List.mem_singleton.mp member
    cases fills
    exact is_for
  · rw [allocated.next] at emitted
    exact then_ after (allocated.trans emitted)

def FollowsNode (e : Emission) (part : Emitter Emitted) (compiled : Except Error Fragment) : Prop :=
  part.Follows e compiled fun emitted fragment after =>
    emitted = (fragment.code, fragment.place) ∧ e.Emits fragment.statements fragment.next after

private theorem follows_settle {next : Code → Emitter γ} {last : γ → β → Emission → Prop}
    (here : Address) {fragment : Fragment}
    (emits : e.Emits fragment.statements fragment.next middle)
    (then_ : ∀ after, e.Emits fragment.settled.statements fragment.settled.next after →
      (next fragment.settled.code).Follows after compiled last) :
    (settle here fragment.code >>= next).Follows middle compiled last := by
  unfold settle Fragment.settled at *
  split
  · next volatile =>
    simp only [volatile, if_true] at then_
    simp only [bind_assoc, pure_bind]
    refine follows_spill here fragment.code emits.sound fun after spilled => ?_
    rw [emits.next] at spilled ⊢
    exact then_ after (emits.trans spilled)
  · next still =>
    simp only [still] at then_
    exact follows_after rfl (then_ middle emits)

/-- A slot for a member is declared, and its subject is settled from the slot behind on. -/
theorem follows_subject {next : Nat → Code → Emitter γ} {rest : Fragment → Except Error δ}
    {last : γ → δ → Emission → Prop} (here : Address) (sound : e.IsSound) {subject : Emitter Emitted}
    {compiled : Nat → Except Error Fragment} (follows : ∀ e, e.IsSound → FollowsNode e subject (compiled e.next))
    (then_ : ∀ fragment after, e.Emits fragment.settled.statements fragment.settled.next after →
      after.IsFor e.next here → (next e.next fragment.settled.code).Follows after (rest fragment) last) :
    (do let slot ← allocate here; let left ← settle here (← subject).1; next slot left).Follows e
      (compiled (e.next + 1) >>= rest) last := by
  refine follows_allocate here sound fun first allocated is_for => ?_
  have inner := follows first allocated.sound
  rw [allocated.next] at inner
  refine inner.bind fun left fragment second both => ?_
  obtain ⟨rfl, emits⟩ := both
  refine follows_settle here emits fun after settled => ?_
  exact then_ fragment after (allocated.trans settled) (is_for.later settled.names)

private theorem follows_again {next : Nat → Emitter γ} {last : γ → β → Emission → Prop}
    (here : Address) (fragment : Fragment)
    (sound : e.IsSound)
    (then_ : ∀ after, e.Emits (fragment.reread e.next) (e.next + 1) after →
      (next e.next).Follows after compiled last) :
    (again here (fragment.code, fragment.place) >>= fun code => spill here code >>= next).Follows e compiled last := by
  unfold again Fragment.reread at *
  cases placed : fragment.place with
  | none =>
    simp only [placed] at then_
    exact follows_after rfl (follows_spill here fragment.code sound then_)
  | some place =>
    simp only [placed] at then_
    simp only [bind_assoc, pure_bind]
    refine follows_read here sound rfl fun middle checked => ?_
    refine follows_spill here _ checked.sound fun after spilled => ?_
    rw [checked.next] at spilled ⊢
    exact then_ after (checked.trans spilled)

private theorem filled_resolution {name : Text} {create : Bool} {statement : Statement}
    {filled : Nat}
    (member : statement ∈ resolution name create slot) (fills : statement.filled? = some filled) : filled = slot := by
  cases create <;> simp only [resolution, List.mem_append, List.mem_cons, List.not_mem_nil, or_false, if_true,
    if_false, Bool.false_eq_true] at member
  · rcases member with rfl | rfl | rfl <;> cases fills <;> rfl
  · rcases member with (rfl | rfl) | rfl | rfl <;> cases fills <;> rfl

theorem filled_access {container : Code} {selector : Selector} {create : Bool} {statement : Statement} {filled : Nat}
    (member : statement ∈ access container selector create slot) (fills : statement.filled? = some filled) :
    filled = slot := by
  cases create <;> simp only [access, List.mem_append, List.mem_cons, List.not_mem_nil, or_false, if_true,
    if_false, Bool.false_eq_true, false_or] at member
  · cases member
    cases fills
    rfl
  · rcases member with rfl | rfl
    · cases fills
    · cases fills
      rfl

/-- An instance makes of a node what the node is compiled to, whatever it has emitted before. -/
abbrev EmitsNode (h : Heap) (node : Node) (create : Bool) (here : Address) : Prop :=
  ∀ e : Emission, e.IsSound → FollowsNode e (compile h node create here) (node.compile h create e.next)

abbrev EmitsAll (h : Heap) (nodes : List Node) (parent : Address) (child : Nat) : Prop :=
  ∀ e : Emission, e.IsSound → (compileAll h nodes parent child).Follows e (Node.compileAll h nodes e.next)
    fun codes parts after => codes = parts.2.1 ∧ e.Emits parts.1 parts.2.2 after

section Nodes

variable {h : Heap} {subject index left right callee : Node} {arguments : List Node} {create : Bool}

private theorem emits_identifier (name : Text) : EmitsNode h (.identifier name) create here := by
  intro e sound
  rw [compile, Node.compile]
  refine (follows_check (checkedName name)).bind fun _ _ middle both => ?_
  obtain ⟨-, rfl⟩ := both
  refine follows_allocate here sound fun middle allocated is_for => ?_
  refine follows_emit allocated.sound (fun statement member slot fills => ?_) fun after emitted => ?_
  · exact filled_resolution member fills ▸ is_for
  · rw [allocated.next] at emitted
    exact follows_pure ⟨rfl, allocated.trans emitted⟩

private theorem emits_computed (subjectEmits : EmitsNode h subject create (here ++ [0]))
    (indexEmits : EmitsNode h index false (here ++ [1])) : EmitsNode h (.member subject index true) create here := by
  intro e sound
  rw [compile, Node.compile]
  refine follows_subject here sound subjectEmits fun fragment first settled is_for => ?_
  have key := indexEmits first settled.sound
  rw [settled.next] at key
  refine key.bind fun computed keyed second both => ?_
  obtain ⟨rfl, keyEmits⟩ := both
  refine follows_spill here keyed.code keyEmits.sound fun third spilled => ?_
  rw [keyEmits.next] at spilled ⊢
  refine follows_read here spilled.sound rfl fun fourth checked => ?_
  have grown : first.names <+: fourth.names := keyEmits.names.trans (spilled.names.trans checked.names)
  refine follows_emit checked.sound (fun statement member slot fills => ?_) fun last accessed => ?_
  · exact filled_access member fills ▸ is_for.later grown
  · rw [checked.next, spilled.next] at accessed
    rw [spilled.next] at checked
    have emits := settled.trans (keyEmits.trans (spilled.trans (checked.trans accessed)))
    refine follows_pure ⟨rfl, ?_⟩
    simpa [Fragment.spilled, Code.site] using emits

private theorem emits_named (subjectEmits : EmitsNode h subject create (here ++ [0]))
    (field : Node) :
    EmitsNode h (.member subject field false) create here := by
  intro e sound
  rw [compile, Node.compile]
  refine follows_subject here sound subjectEmits fun fragment first settled is_for => ?_
  refine (follows_check (memberName field)).bind fun name _ _ both => ?_
  obtain ⟨rfl, rfl⟩ := both
  refine (follows_check (checkedName name)).bind fun _ _ _ both => ?_
  obtain ⟨-, rfl⟩ := both
  refine follows_emit settled.sound (fun statement member slot fills => ?_) fun last accessed => ?_
  · exact filled_access member fills ▸ is_for
  · rw [settled.next] at accessed
    exact follows_pure ⟨rfl, settled.trans accessed⟩

private theorem emits_call (calleeEmits : EmitsNode h callee false (here ++ [0]))
    (argumentsEmit : EmitsAll h arguments here 1) :
    EmitsNode h (.call callee arguments) create here := by
  intro e sound
  rw [compile, Node.compile]
  refine (calleeEmits e sound).bind fun target fragment first both => ?_
  obtain ⟨rfl, called⟩ := both
  have others := argumentsEmit first called.sound
  rw [called.next] at others
  refine others.bind fun codes parts second both => ?_
  obtain ⟨rfl, handed⟩ := both
  refine follows_again here fragment handed.sound fun third reread => ?_
  rw [handed.next] at reread ⊢
  refine follows_read here reread.sound rfl fun last checked => ?_
  rw [reread.next] at checked
  have emits := (called.trans handed).trans (reread.trans checked)
  refine follows_pure ⟨rfl, ?_⟩
  simpa using emits

private theorem emits_assignment (leftEmits : EmitsNode h left true (here ++ [0]))
    (rightEmits : EmitsNode h right false (here ++ [1])) : EmitsNode h (.assignment left right) create here := by
  intro e sound
  rw [compile, Node.compile]
  refine (leftEmits e sound).bind fun target fragment first both => ?_
  obtain ⟨rfl, assigned⟩ := both
  dsimp only
  cases fragment.place with
  | none => exact follows_throw _
  | some place =>
    have value := rightEmits first assigned.sound
    rw [assigned.next] at value
    refine value.bind fun source read last both => ?_
    obtain ⟨rfl, given⟩ := both
    exact follows_pure ⟨rfl, assigned.trans given⟩

end Nodes

mutual

theorem follows_compile (h : Heap) : (node : Node) → (create : Bool) → (here : Address) → EmitsNode h node create here
  | .program body, create, here, e, sound => by
    rw [compile, Node.compile]
    refine (follows_compile h body false (here ++ [0]) e sound).bind fun inner fragment middle both => ?_
    obtain ⟨rfl, emits⟩ := both
    refine follows_read here emits.sound rfl fun after emitted => ?_
    rw [emits.next] at emitted
    exact follows_pure ⟨rfl, emits.trans emitted⟩
  | .literal _, _, _, _, sound | .this, _, _, _, sound | .locals, _, _, _, sound | .parameter, _, _, _, sound =>
    follows_pure ⟨rfl, sound.emits⟩
  | .array elements, create, here, e, sound => by
    rw [compile, Node.compile]
    refine (follows_compileAll h elements here 0 e sound).bind fun codes parts after both => ?_
    obtain ⟨rfl, emits⟩ := both
    exact follows_pure ⟨rfl, emits⟩
  | .object properties, create, here, e, sound => by
    rw [compile, Node.compile]
    refine (follows_compileProperties h properties here 0 e sound).bind fun pairs parts after both => ?_
    obtain ⟨rfl, emits⟩ := both
    exact follows_pure ⟨rfl, emits⟩
  | .identifier name, _, _, e, sound => emits_identifier name e sound
  | .member subject index true, create, here, e, sound =>
    emits_computed (follows_compile h subject create (here ++ [0])) (follows_compile h index false (here ++ [1])) e sound
  | .member subject field false, create, here, e, sound =>
    emits_named (follows_compile h subject create (here ++ [0])) field e sound
  | .call callee arguments, _, here, e, sound =>
    emits_call (follows_compile h callee false (here ++ [0])) (follows_compileAll h arguments here 1) e sound
  | .assignment left right, _, here, e, sound =>
    emits_assignment (follows_compile h left true (here ++ [0])) (follows_compile h right false (here ++ [1])) e sound
  | .property _ _, _, _, _, _ | .foreign, _, _, _, _ => follows_throw _

theorem follows_compileAll (h : Heap) : (nodes : List Node) → (parent : Address) → (child : Nat) →
    EmitsAll h nodes parent child
  | [], _, _, _, sound => follows_pure ⟨rfl, sound.emits⟩
  | node :: nodes, parent, child, e, sound => by
    rw [compileAll, Node.compileAll]
    refine (follows_compile h node false (parent ++ [child]) e sound).bind fun first fragment middle both => ?_
    obtain ⟨rfl, emits⟩ := both
    have others := follows_compileAll h nodes parent (child + 1) middle emits.sound
    rw [emits.next] at others
    refine others.bind fun codes parts after both => ?_
    obtain ⟨rfl, further⟩ := both
    exact follows_pure ⟨rfl, emits.trans further⟩

theorem follows_compileProperties (h : Heap) : (properties : List Node) → (parent : Address) → (child : Nat) →
    (e : Emission) → e.IsSound →
      (compileProperties h properties parent child).Follows e (Node.compileProperties h properties e.next)
        fun pairs parts after => pairs = (parts.2.1, parts.2.2.1) ∧ e.Emits parts.1 parts.2.2.2 after
  | [], parent, child, e, sound => follows_pure ⟨rfl, sound.emits⟩
  | .property key value :: properties, parent, child, e, sound => by
    rw [compileProperties, Node.compileProperties]
    refine (follows_check (propertyKey h key)).bind fun shown _ _ both => ?_
    obtain ⟨rfl, rfl⟩ := both
    refine (follows_compile h value false (parent ++ [child, 1]) _ sound).bind fun first fragment middle both => ?_
    obtain ⟨rfl, emits⟩ := both
    have others := follows_compileProperties h properties parent (child + 1) middle emits.sound
    rw [emits.next] at others
    refine others.bind fun pairs parts after both => ?_
    obtain ⟨rfl, further⟩ := both
    exact follows_pure ⟨rfl, emits.trans further⟩
  | .program _ :: _, _, _, _, _ | .literal _ :: _, _, _, _, _ | .array _ :: _, _, _, _, _
  | .object _ :: _, _, _, _, _ | .identifier _ :: _, _, _, _, _ | .this :: _, _, _, _, _
  | .locals :: _, _, _, _, _ | .member _ _ _ :: _, _, _, _, _ | .call _ _ :: _, _, _, _, _
  | .assignment _ _ :: _, _, _, _, _ | .parameter :: _, _, _, _, _ | .foreign :: _, _, _, _, _ => follows_throw _

end

end Emitter

def EmittedBody.IsSound (emitted : EmittedBody) : Prop :=
  Emission.IsSound ⟨emitted.body, emitted.names, emitted.names.length⟩

namespace Emitter

open Emission

/-- The body of a tree is its routine, whatever the instance has emitted before. -/
theorem follows_body (h : Heap) (tree : Node) (e : Emission) :
    (body h tree).Follows e (tree.routine h) fun emitted routine _ => emitted.routine = routine ∧ emitted.IsSound := by
  rw [body, Node.routine]
  refine follows_after rfl ?_
  refine (follows_compile h tree false [] .fresh isSound_fresh).bind fun _ fragment after both => ?_
  obtain ⟨-, emits⟩ := both
  refine follows_after rfl ?_
  have length : after.names.length = after.next := emits.sound.length
  refine follows_pure ⟨?_, ?_⟩
  · rw [EmittedBody.routine, emits.body, length, emits.next]
    rfl
  · rw [EmittedBody.IsSound, length]
    exact emits.sound

/-- What an instance makes of a tree is the evaluator of the tree, whatever it has emitted before. -/
theorem follows_evaluator (h : Heap) (tree : Node) (text : Text) (e : Emission) :
    (evaluator h tree).Follows e (Evaluator.ofTree h tree text) fun made evaluator _ =>
      evaluator = ⟨text, tree, made.1.routine, made.2.map EmittedBody.routine⟩ ∧ made.1.IsSound ∧
        ∀ other ∈ made.2, other.IsSound := by
  have main := follows_body h tree e
  unfold evaluator Evaluator.ofTree
  cases tree with
  | program expression =>
    refine main.bind fun emitted routine middle both => ?_
    obtain ⟨rfl, sound⟩ := both
    dsimp only
    by_cases assignable : expression.isAssignable
    · rw [if_pos assignable, if_pos assignable]
      rw [bind_map_left]
      refine (follows_body h (.program (.assignment expression .parameter)) middle).bind fun other assigner _ both => ?_
      obtain ⟨rfl, also⟩ := both
      exact follows_pure ⟨rfl, sound, fun _ same => Option.some.inj same ▸ also⟩
    · rw [if_neg assignable, if_neg assignable]
      exact follows_pure ⟨rfl, sound, nofun⟩
  | _ => exact main.bind fun _ _ _ _ => follows_throw _

end Emitter

end GuardedExpr

import GuardedExpr.Evaluator
import GuardedExpr.Proofs.Heap.ClassifiedValues

/-!
The parts that a node is compiled from. Where a node compiles, so do its parts, and what it becomes is put
together from what they become. There is one lemma for each kind of node that has parts.
-/

namespace GuardedExpr.Node

variable {h : Heap} {create : Bool} {free next : Nat} {fragment : Fragment} {body subject index field callee
  left right node key value : Node} {elements properties arguments nodes : List Node} {name : Text}
  {statements : List Statement} {keys : List (Value × Text)} {codes : List Code} {routine : Routine}

theorem parts_program (compiled : (program body).compile h create free = .ok fragment) :
    ∃ inner, body.compile h false free = .ok inner ∧
      fragment = { inner with statements := inner.statements ++ [.result inner.code], place := none } := by
  rw [compile, bind_eq_ok] at compiled
  obtain ⟨inner, bodyCompiled, same⟩ := compiled
  cases same
  exact ⟨inner, bodyCompiled, rfl⟩

theorem parts_array (compiled : (array elements).compile h create free = .ok fragment) :
    ∃ statements codes next, compileAll h elements free = .ok (statements, codes, next) ∧
      fragment = ⟨statements, .array codes, none, next⟩ := by
  rw [compile, bind_eq_ok] at compiled
  obtain ⟨⟨statements, codes, next⟩, elementsCompiled, same⟩ := compiled
  cases same
  exact ⟨statements, codes, next, elementsCompiled, rfl⟩

theorem parts_object (compiled : (object properties).compile h create free = .ok fragment) :
    ∃ statements keys codes next, compileProperties h properties free = .ok (statements, keys, codes, next) ∧
      fragment = ⟨statements, .object keys codes, none, next⟩ := by
  rw [compile, bind_eq_ok] at compiled
  obtain ⟨⟨statements, keys, codes, next⟩, propertiesCompiled, same⟩ := compiled
  cases same
  exact ⟨statements, keys, codes, next, propertiesCompiled, rfl⟩

theorem parts_identifier (compiled : (identifier name).compile h create free = .ok fragment) :
    checkedName name = .ok () ∧
      fragment = ⟨resolution name create free, .slot free, some ⟨.owner name, .name name⟩, free + 1⟩ := by
  rw [compile, bind_eq_ok] at compiled
  obtain ⟨⟨⟩, checked, same⟩ := compiled
  cases same
  exact ⟨checked, rfl⟩

/-- The key is read into the slot that the subject and the key itself leave free. -/
theorem parts_computed (compiled : (member subject index true).compile h create free = .ok fragment) :
    ∃ inner computed, subject.compile h create (free + 1) = .ok inner ∧
      index.compile h false inner.settled.next = .ok computed ∧
      fragment = ⟨inner.settled.statements ++ computed.spilled.statements ++ [.checkName computed.next] ++
          access inner.settled.code (.slot computed.next) create free,
        .slot free, some ⟨inner.settled.code, .slot computed.next⟩, computed.next + 1⟩ := by
  rw [compile, bind_eq_ok] at compiled
  obtain ⟨inner, subjectCompiled, compiled⟩ := compiled
  obtain ⟨computed, indexCompiled, same⟩ := bind_eq_ok.mp compiled
  cases same
  exact ⟨inner, computed, subjectCompiled, indexCompiled, rfl⟩

theorem parts_named (compiled : (member subject field false).compile h create free = .ok fragment) :
    ∃ inner name, subject.compile h create (free + 1) = .ok inner ∧ memberName field = .ok name ∧
      checkedName name = .ok () ∧
      fragment = ⟨inner.settled.statements ++ access inner.settled.code (.name name) create free,
        .slot free, some ⟨inner.settled.code, .name name⟩, inner.settled.next⟩ := by
  rw [compile, bind_eq_ok] at compiled
  obtain ⟨inner, subjectCompiled, compiled⟩ := compiled
  obtain ⟨name, named, compiled⟩ := bind_eq_ok.mp compiled
  obtain ⟨⟨⟩, checked, same⟩ := bind_eq_ok.mp compiled
  cases same
  exact ⟨inner, name, subjectCompiled, named, checked, rfl⟩

theorem parts_call (compiled : (call callee arguments).compile h create free = .ok fragment) :
    ∃ target statements codes next, callee.compile h false free = .ok target ∧
      compileAll h arguments target.next = .ok (statements, codes, next) ∧
      fragment = ⟨target.statements ++ statements ++ target.reread next ++ [.checkFunction next],
        .call next (codes.map .guarded), none, next + 1⟩ := by
  rw [compile, bind_eq_ok] at compiled
  obtain ⟨target, calleeCompiled, compiled⟩ := compiled
  obtain ⟨⟨statements, codes, next⟩, argumentsCompiled, same⟩ := bind_eq_ok.mp compiled
  cases same
  exact ⟨target, statements, codes, next, calleeCompiled, argumentsCompiled, rfl⟩

theorem parts_assignment (compiled : (assignment left right).compile h create free = .ok fragment) :
    ∃ target place source, left.compile h true free = .ok target ∧ target.place = some place ∧
      right.compile h false target.next = .ok source ∧
      fragment = ⟨target.statements ++ source.statements,
        .store target.code.site place.container place.selector (.guarded source.code), none, source.next⟩ := by
  rw [compile, bind_eq_ok] at compiled
  obtain ⟨target, leftCompiled, compiled⟩ := compiled
  cases placed : target.place with
  | none =>
    rw [placed] at compiled
    cases compiled
  | some place =>
    rw [placed] at compiled
    obtain ⟨source, rightCompiled, same⟩ := bind_eq_ok.mp compiled
    cases same
    exact ⟨target, place, source, leftCompiled, placed, rightCompiled, rfl⟩

theorem parts_cons (compiled : compileAll h (node :: nodes) free = .ok (statements, codes, next)) :
    ∃ first others further, node.compile h false free = .ok first ∧
      compileAll h nodes first.next = .ok (others, further, next) ∧
      statements = first.statements ++ others ∧ codes = first.code :: further := by
  rw [compileAll, bind_eq_ok] at compiled
  obtain ⟨first, nodeCompiled, compiled⟩ := compiled
  obtain ⟨⟨others, further, last⟩, nodesCompiled, same⟩ := bind_eq_ok.mp compiled
  cases same
  exact ⟨first, others, further, nodeCompiled, nodesCompiled, rfl, rfl⟩

theorem parts_property (compiled :
    compileProperties h (.property key value :: properties) free = .ok (statements, keys, codes, next)) :
    ∃ shown first others shownOthers further, propertyKey h key = .ok shown ∧
      value.compile h false free = .ok first ∧
      compileProperties h properties first.next = .ok (others, shownOthers, further, next) ∧
      statements = first.statements ++ others ∧ keys = shown :: shownOthers ∧
      codes = first.code :: further := by
  rw [compileProperties, bind_eq_ok] at compiled
  obtain ⟨shown, keyed, compiled⟩ := compiled
  obtain ⟨first, valueCompiled, compiled⟩ := bind_eq_ok.mp compiled
  obtain ⟨⟨others, shownOthers, further, last⟩, othersCompiled, same⟩ := bind_eq_ok.mp compiled
  cases same
  exact ⟨shown, first, others, shownOthers, further, keyed, valueCompiled, othersCompiled, rfl, rfl, rfl⟩

theorem parts_routine (made : (program body).routine h = .ok routine) :
    ∃ inner, body.compile h false 0 = .ok inner ∧
      routine = ⟨inner.statements ++ [.result inner.code], inner.next⟩ := by
  rw [Node.routine, bind_eq_ok] at made
  obtain ⟨whole, programCompiled, same⟩ := made
  cases same
  obtain ⟨inner, bodyCompiled, rfl⟩ := parts_program programCompiled
  exact ⟨inner, bodyCompiled, rfl⟩

end GuardedExpr.Node

namespace GuardedExpr.Evaluator

/-- An evaluator has the routine of its tree, and that of an assignment just if its tree is a name or a member. -/
theorem parts_ofTree {h : Heap} {body : Node} {text : Text} {evaluator : Evaluator}
    (made : ofTree h (.program body) text = .ok evaluator) :
    ∃ routine assigner, (Node.program body).routine h = .ok routine ∧
      (∀ assigning, assigner = some assigning →
        (Node.program (.assignment body .parameter)).routine h = .ok assigning) ∧
      assigner.isSome = body.isAssignable ∧ evaluator = ⟨text, .program body, routine, assigner⟩ := by
  rw [ofTree, bind_eq_ok] at made
  obtain ⟨routine, routineMade, made⟩ := made
  dsimp only at made
  split at made
  · next assignable =>
    cases assigningMade : (Node.program (.assignment body .parameter)).routine h with
    | error failure =>
      rw [assigningMade] at made
      cases made
    | ok assigning =>
      rw [assigningMade] at made
      cases made
      exact ⟨routine, some assigning, routineMade, fun _ same => Option.some.inj same ▸ rfl, assignable.symm, rfl⟩
  · next other =>
    cases made
    exact ⟨routine, none, routineMade, nofun, ((Bool.not_eq_true _).mp other).symm, rfl⟩

end GuardedExpr.Evaluator

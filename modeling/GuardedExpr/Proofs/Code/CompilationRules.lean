import GuardedExpr.Proofs.Code.CompiledParts

/-!
Compilation as a relation, with one rule for each way in which a node comes to its code. The items of an array are
compiled one after the other, and so are the arguments of a call, which are compiled like an array of them. What holds
of all code that trees are compiled to is proved by one induction over the rules.
-/

namespace GuardedExpr

@[elab_as_elim]
theorem Fragment.settled_of {motive : Fragment → Prop} (fragment : Fragment)
    (spilled : fragment.code.isVolatile = true → motive fragment.spilled)
    (still : fragment.code.isVolatile = false → motive fragment) : motive fragment.settled := by
  unfold settled
  split
  · next volatile => exact spilled volatile
  · next calm => exact still ((Bool.not_eq_true _).mp calm)

theorem Fragment.next_le_settled (fragment : Fragment) : fragment.next ≤ fragment.settled.next :=
  fragment.settled_of (fun _ => Nat.le_succ _) fun _ => Nat.le_refl _

namespace Node

/-- A node becomes a fragment, from a free slot on. -/
inductive Becomes (h : Heap) : Node → Bool → Nat → Fragment → Prop where
  | program {body : Node} {create : Bool} {free : Nat} {inner : Fragment} (made : Becomes h body false free inner) :
      Becomes h (.program body) create free
        { inner with statements := inner.statements ++ [.result inner.code], place := none }
  | literal (value : Value) (create : Bool) (free : Nat) :
      Becomes h (.literal value) create free (.inline (.literal value (h.escape value)) free)
  | this (create : Bool) (free : Nat) : Becomes h .this create free (.inline .scope free)
  | locals (create : Bool) (free : Nat) : Becomes h .locals create free (.inline .locals free)
  | parameter (create : Bool) (free : Nat) : Becomes h .parameter create free (.inline .parameter free)
  | noItems (create : Bool) (free : Nat) : Becomes h (.array []) create free (.inline (.array []) free)
  | item {node : Node} {nodes : List Node} {create : Bool} {free next : Nat} {first : Fragment}
      {statements : List Statement} {codes : List Code} (head : Becomes h node false free first)
      (tail : Becomes h (.array nodes) create first.next ⟨statements, .array codes, none, next⟩) :
      Becomes h (.array (node :: nodes)) create free
        ⟨first.statements ++ statements, .array (first.code :: codes), none, next⟩
  | noProperties (create : Bool) (free : Nat) : Becomes h (.object []) create free (.inline (.object [] []) free)
  | property {key value : Node} {properties : List Node} {create : Bool} {free next : Nat} {first : Fragment}
      {shown : Value × Text} {statements : List Statement} {keys : List (Value × Text)} {codes : List Code}
      (keyed : propertyKey h key = .ok shown) (head : Becomes h value false free first)
      (tail : Becomes h (.object properties) create first.next ⟨statements, .object keys codes, none, next⟩) :
      Becomes h (.object (.property key value :: properties)) create free
        ⟨first.statements ++ statements, .object (shown :: keys) (first.code :: codes), none, next⟩
  | identifier {name : Text} (checked : checkedName name = .ok ()) (create : Bool) (free : Nat) :
      Becomes h (.identifier name) create free
        ⟨resolution name create free, .slot free, some ⟨.owner name, .name name⟩, free + 1⟩
  | computed {subject index : Node} {create : Bool} {free : Nat} {inner key : Fragment}
      (left : Becomes h subject create (free + 1) inner) (right : Becomes h index false inner.settled.next key) :
      Becomes h (.member subject index true) create free
        ⟨inner.settled.statements ++ key.spilled.statements ++ [.checkName key.next] ++
          access inner.settled.code (.slot key.next) create free,
        .slot free, some ⟨inner.settled.code, .slot key.next⟩, key.next + 1⟩
  | named {subject : Node} {name : Text} {create : Bool} {free : Nat} {inner : Fragment}
      (left : Becomes h subject create (free + 1) inner) (checked : checkedName name = .ok ()) :
      Becomes h (.member subject (.identifier name) false) create free
        ⟨inner.settled.statements ++ access inner.settled.code (.name name) create free,
        .slot free, some ⟨inner.settled.code, .name name⟩, inner.settled.next⟩
  | call {callee : Node} {arguments : List Node} {create : Bool} {free next : Nat} {target : Fragment}
      {statements : List Statement} {codes : List Code} (called : Becomes h callee false free target)
      (handed : Becomes h (.array arguments) false target.next ⟨statements, .array codes, none, next⟩) :
      Becomes h (.call callee arguments) create free
        ⟨target.statements ++ statements ++ target.reread next ++ [.checkFunction next],
        .call next (codes.map .guarded), none, next + 1⟩
  | assignment {left right : Node} {create : Bool} {free : Nat} {target source : Fragment} {place : Place}
      (assigned : Becomes h left true free target) (placed : target.place = some place)
      (given : Becomes h right false target.next source) :
      Becomes h (.assignment left right) create free
        ⟨target.statements ++ source.statements,
        .store target.code.site place.container place.selector (.guarded source.code), none, source.next⟩

variable {h : Heap}

private theorem eq_identifier_of_memberName {field : Node} {name : Text}
    (named : memberName field = .ok name) :
    field = .identifier name := by
  cases field with
  | identifier => rw [Except.ok.inj named]
  | _ => cases named

mutual

theorem becomes_of_compile : (node : Node) → ∀ {create : Bool} {free : Nat} {fragment : Fragment},
    node.compile h create free = .ok fragment → node.Becomes h create free fragment
  | .program body, _, _, _, compiled => by
    obtain ⟨inner, bodyCompiled, rfl⟩ := parts_program compiled
    exact .program (becomes_of_compile body bodyCompiled)
  | .literal value, create, free, _, compiled => by
    cases compiled
    exact .literal value create free
  | .this, create, free, _, compiled => by
    cases compiled
    exact .this create free
  | .locals, create, free, _, compiled => by
    cases compiled
    exact .locals create free
  | .parameter, create, free, _, compiled => by
    cases compiled
    exact .parameter create free
  | .array elements, create, _, _, compiled => by
    obtain ⟨statements, codes, next, elementsCompiled, rfl⟩ := parts_array compiled
    exact becomes_of_compileAll elements create elementsCompiled
  | .object properties, create, _, _, compiled => by
    obtain ⟨statements, keys, codes, next, propertiesCompiled, rfl⟩ := parts_object compiled
    exact becomes_of_compileProperties properties create propertiesCompiled
  | .identifier name, create, free, _, compiled => by
    obtain ⟨checked, rfl⟩ := parts_identifier compiled
    exact .identifier checked create free
  | .member subject index true, _, _, _, compiled => by
    obtain ⟨inner, key, subjectCompiled, indexCompiled, rfl⟩ := parts_computed compiled
    exact .computed (becomes_of_compile subject subjectCompiled) (becomes_of_compile index indexCompiled)
  | .member subject field false, _, _, _, compiled => by
    obtain ⟨inner, name, subjectCompiled, named, checked, rfl⟩ := parts_named compiled
    obtain rfl := eq_identifier_of_memberName named
    exact .named (becomes_of_compile subject subjectCompiled) checked
  | .call callee arguments, _, _, _, compiled => by
    obtain ⟨target, statements, codes, next, calleeCompiled, argumentsCompiled, rfl⟩ := parts_call compiled
    exact .call (becomes_of_compile callee calleeCompiled) (becomes_of_compileAll arguments false argumentsCompiled)
  | .assignment left right, _, _, _, compiled => by
    obtain ⟨target, place, source, leftCompiled, placed, rightCompiled, rfl⟩ := parts_assignment compiled
    exact .assignment (becomes_of_compile left leftCompiled) placed (becomes_of_compile right rightCompiled)

theorem becomes_of_compileAll : (nodes : List Node) → ∀ (create : Bool) {free next : Nat}
    {statements : List Statement} {codes : List Code}, compileAll h nodes free = .ok (statements, codes, next) →
      (array nodes).Becomes h create free ⟨statements, .array codes, none, next⟩
  | [], create, free, _, _, _, compiled => by
    cases compiled
    exact .noItems create free
  | node :: nodes, create, _, _, _, _, compiled => by
    obtain ⟨first, others, further, nodeCompiled, nodesCompiled, rfl, rfl⟩ := parts_cons compiled
    exact .item (becomes_of_compile node nodeCompiled) (becomes_of_compileAll nodes create nodesCompiled)

theorem becomes_of_compileProperties : (properties : List Node) → ∀ (create : Bool) {free next : Nat}
    {statements : List Statement} {keys : List (Value × Text)} {codes : List Code},
    compileProperties h properties free = .ok (statements, keys, codes, next) →
      (object properties).Becomes h create free ⟨statements, .object keys codes, none, next⟩
  | [], create, free, _, _, _, _, compiled => by
    cases compiled
    exact .noProperties create free
  | .property key value :: properties, create, _, _, _, _, _, compiled => by
    obtain ⟨shown, first, others, shownOthers, further, keyed, valueCompiled, othersCompiled, rfl, rfl, rfl⟩ :=
      parts_property compiled
    exact .property keyed (becomes_of_compile value valueCompiled)
      (becomes_of_compileProperties properties create othersCompiled)

end

variable {node : Node} {create : Bool} {free : Nat} {fragment : Fragment}

theorem Becomes.compiled (made : node.Becomes h create free fragment) : node.compile h create free = .ok fragment := by
  induction made with
  | program _ ih =>
    rw [compile, ih]
    rfl
  | literal | this | locals | parameter => rfl
  | noItems | noProperties => rfl
  | item _ _ head tail =>
    obtain ⟨_, _, _, elements, same⟩ := parts_array tail
    cases same
    rw [compile, compileAll, head]
    dsimp only [bind, Except.bind]
    rw [elements]
    rfl
  | property keyed _ _ head tail =>
    obtain ⟨_, _, _, _, others, same⟩ := parts_object tail
    cases same
    rw [compile, compileProperties, keyed]
    dsimp only [bind, Except.bind]
    rw [head]
    dsimp only
    rw [others]
    rfl
  | identifier checked =>
    rw [compile, checked]
    rfl
  | computed _ _ left right =>
    rw [compile, left]
    dsimp only [bind, Except.bind]
    rw [right]
    rfl
  | named _ checked left =>
    rw [compile, left]
    dsimp only [bind, Except.bind, memberName]
    rw [checked]
    rfl
  | call _ _ called handed =>
    obtain ⟨_, _, _, arguments, same⟩ := parts_array handed
    cases same
    rw [compile, called]
    dsimp only [bind, Except.bind]
    rw [arguments]
    rfl
  | assignment _ placed _ assigned given =>
    rw [compile, assigned]
    dsimp only [bind, Except.bind]
    rw [placed]
    dsimp only
    rw [given]
    rfl

/-- What a node becomes names a place just if the node is a name or a member. -/
theorem Becomes.isSome_place (made : node.Becomes h create free fragment) :
    fragment.place.isSome = node.isAssignable := by
  cases made <;> rfl

theorem Becomes.isAssignable {place : Place} (made : node.Becomes h create free fragment)
    (placed : fragment.place = some place) : node.isAssignable := by
  rw [← made.isSome_place, placed]
  rfl

theorem Becomes.le_next (made : node.Becomes h create free fragment) : free ≤ fragment.next := by
  induction made with
  | program _ ih => exact ih
  | literal | this | locals | parameter | noItems | noProperties => exact Nat.le_refl _
  | item _ _ head tail | property _ _ _ head tail => exact Nat.le_trans head tail
  | identifier => exact Nat.le_succ _
  | @computed _ _ _ _ inner _ _ _ left right =>
    have settled := inner.next_le_settled
    change _ ≤ _ + 1
    omega
  | @named _ _ _ _ inner _ _ left => exact Nat.le_trans (Nat.le_of_succ_le left) inner.next_le_settled
  | call _ _ called handed => exact Nat.le_trans called (Nat.le_succ_of_le handed)
  | assignment _ _ _ assigned given => exact Nat.le_trans assigned given

end Node

end GuardedExpr

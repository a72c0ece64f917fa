import GuardedExpr.Proofs.Code.ScriptShares

/-!
Where a node occurs in a tree, and where its deeds are in the script of the whole. The deeds in its statements
come before the deeds in its code, wherever the node stands; between and around them are only deeds of others.
-/

namespace GuardedExpr

namespace Fragment

variable {outer inner fragment whole : Fragment} {free start : Nat} {gates inward : List Nat}
  {script : List Duty}

/-- The deeds of a fragment in a script: those of its statements, and later those of its code, which are behind
the gates of the given calls. All else in the script is done by others. -/
inductive LiesIn (fragment : Fragment) (free : Nat) (gates : List Nat) (script : List Duty) : Prop where
  | intro (before between behind : List Duty)
      (split : script = before ++ fragment.hoisted ++ between ++
        fragment.deferred.map (Duty.behind gates) ++ behind)
      (apart : Duty.AreApart free fragment.next (before ++ between ++ behind))

inductive StandsIn (inner : Fragment) (start : Nat) (gates : List Nat) (outer : Fragment) : Prop where
  | intro (before between ahead behind : List Duty)
      (hoisted : outer.hoisted = before ++ inner.hoisted ++ between)
      (deferred : outer.deferred = ahead ++ inner.deferred.map (Duty.behind gates) ++ behind)
      (apart : Duty.AreApart start inner.next (before ++ between ++ ahead ++ behind))

inductive SpillsIn (inner : Fragment) (start : Nat) (outer : Fragment) : Prop where
  | intro (before between behind : List Duty)
      (hoisted : outer.hoisted = before ++ inner.hoisted ++ between ++ inner.deferred ++ behind)
      (apart : Duty.AreApart start inner.next (before ++ between ++ behind ++ outer.deferred))

theorem map_behind_nil (script : List Duty) : script.map (Duty.behind []) = script :=
  List.map_id' script

private theorem liesIn_self (fragment : Fragment) (free : Nat) :
    fragment.LiesIn free [] (fragment.hoisted ++ fragment.deferred) := by
  refine .intro [] [] [] ?_ fun _ member => nomatch member
  simp [map_behind_nil]

theorem LiesIn.standing (lies : outer.LiesIn free gates script) (stands : inner.StandsIn start inward outer)
    (low : free ≤ start) (high : inner.next ≤ outer.next) : inner.LiesIn start (gates ++ inward) script := by
  obtain ⟨before, between, behind, split, apart⟩ := lies
  obtain ⟨first, second, third, fourth, hoisted, deferred, others⟩ := stands
  have around := apart.mono low high
  simp only [Duty.areApart_append] at around others
  refine .intro (before ++ first) (second ++ between ++ third.map (Duty.behind gates))
    (fourth.map (Duty.behind gates) ++ behind) ?_ ?_
  · rw [split, hoisted, deferred]
    simp [Function.comp_def, Duty.behind_behind]
  · simp only [Duty.areApart_append, Duty.areApart_behind]
    tauto

theorem LiesIn.spilled (lies : outer.LiesIn free gates script) (spills : inner.SpillsIn start outer)
    (low : free ≤ start) (high : inner.next ≤ outer.next) : inner.LiesIn start [] script := by
  obtain ⟨before, between, behind, split, apart⟩ := lies
  obtain ⟨first, second, third, hoisted, others⟩ := spills
  have around := apart.mono low high
  simp only [Duty.areApart_append] at around others
  refine .intro (before ++ first) second
    (third ++ between ++ outer.deferred.map (Duty.behind gates) ++ behind) ?_ ?_
  · rw [split, hoisted]
    simp [map_behind_nil]
  · simp only [Duty.areApart_append, Duty.areApart_behind]
    tauto

variable {statements : List Statement} {codes : List Code} {next : Nat}

private theorem spillsIn_named (subject : fragment.OwnsDeeds (free + 1)) (selector : Selector)
    (create : Bool)
    (place : Option Place) :
    fragment.SpillsIn (free + 1)
      ⟨fragment.settled.statements ++ access fragment.settled.code selector create free, .slot free, place,
        fragment.settled.next⟩ := by
  refine .intro [] [] (creation create selector) ?_ ?_
  · simp [hoisted_named subject selector create place]
  · simp only [Duty.areApart_append]
    exact ⟨⟨⟨Duty.areApart_nil, Duty.areApart_nil⟩, areApart_creation create selector _ _⟩, Duty.areApart_nil⟩

theorem spillsIn_computed {index : Fragment} (subject : fragment.OwnsDeeds (free + 1))
    (key : index.OwnsDeeds fragment.settled.next) (create : Bool) (place : Option Place) :
    let outer : Fragment := ⟨fragment.settled.statements ++ index.spilled.statements ++ [.checkName index.next] ++
      access fragment.settled.code (.slot index.next) create free, .slot free, place, index.next + 1⟩
    fragment.SpillsIn (free + 1) outer ∧ index.SpillsIn fragment.settled.next outer := by
  intro outer
  have settled := fragment.next_le_settled
  have script : outer.hoisted = _ := hoisted_computed subject _ create place
  have made := areApart_creation create (.slot index.next)
  constructor
  · refine .intro [] [] (index.hoisted ++ index.deferred ++ creation create (.slot index.next)) ?_ ?_
    · simp [script]
    · simp only [Duty.areApart_append]
      exact ⟨⟨⟨Duty.areApart_nil, Duty.areApart_nil⟩, ⟨key.hoisted.apart (.inr settled), key.deferred.apart (.inr settled)⟩, made _ _⟩,
        Duty.areApart_nil⟩
  · refine .intro (fragment.hoisted ++ fragment.deferred) [] (creation create (.slot index.next)) ?_ ?_
    · simp [script]
    · simp only [Duty.areApart_append]
      exact ⟨⟨⟨⟨subject.hoisted.apart (.inl settled), subject.deferred.apart (.inl settled)⟩, Duty.areApart_nil⟩, made _ _⟩,
        Duty.areApart_nil⟩

/-- What a call runs before its callee is read again, and what it runs behind its gate. -/
theorem parts_of_call {target : Fragment} (callee : target.OwnsDeeds free)
    (arguments : (items statements codes next).OwnsDeeds target.next) :
    let outer : Fragment := ⟨target.statements ++ statements ++ target.reread next ++ [.checkFunction next],
      .call next (codes.map .guarded), none, next + 1⟩
    target.SpillsIn free outer ∧ (items statements codes next).StandsIn target.next [next] outer := by
  intro outer
  have first : outer.hoisted = _ := hoisted_call callee statements _ next
  have second : outer.deferred = _ := deferred_call _ codes next
  have above : target.next ≤ next := arguments.advance
  constructor
  · refine .intro [] (Statement.scriptAll statements) [] ?_ ?_
    · simp [first]
    · rw [second]
      simp only [Duty.areApart_append, Duty.areApart_behind, Duty.areApart_singleton]
      refine ⟨⟨⟨Duty.areApart_nil, arguments.hoisted.apart (.inr (Nat.le_refl _))⟩, Duty.areApart_nil⟩,
        arguments.deferred.apart (.inr (Nat.le_refl _)), ?_⟩
      rintro owner ⟨⟩
      exact .inr above
  · refine .intro target.hoisted target.deferred [] [Duty.behind [next] (Deed.toDuty (.call next))] ?_ ?_
      ?_
    · exact first
    · rw [second]
      simp [items, deferred, Code.script]
    · simp only [Duty.areApart_append]
      refine ⟨⟨⟨callee.hoisted.apart (.inl (Nat.le_refl _)), callee.deferred.apart (.inl (Nat.le_refl _))⟩,
        Duty.areApart_nil⟩, ?_⟩
      refine List.forall_mem_singleton.mpr ?_
      rintro owner ⟨⟩
      exact .inr (Nat.le_refl next)

/-- The right side of an assignment, and what the left side runs before its target is read. -/
theorem standsIn_assignment {target : Fragment} {place : Place} (left : target.OwnsDeeds free)
    (placed : target.place = some place) (source : Fragment) :
    source.StandsIn target.next [] ⟨target.statements ++ source.statements,
      .store target.code.site place.container place.selector (.guarded source.code), none, source.next⟩ := by
  have below := (left.place place placed).2.2
  refine .intro target.hoisted [] [] [Deed.toDuty (.store free)] ?_ ?_ ?_
  · simp [hoisted]
  · rw [deferred_assignment left placed, map_behind_nil]
    rfl
  · simp only [Duty.areApart_append, Duty.areApart_singleton]
    refine ⟨⟨⟨left.hoisted.apart (.inl (Nat.le_refl _)), Duty.areApart_nil⟩, Duty.areApart_nil⟩, ?_⟩
    rintro owner ⟨⟩
    exact .inl below

private theorem spillsIn_assignment {target source : Fragment} {place : Place}
    (left : target.OwnsDeeds free)
    (placed : target.place = some place) (right : source.OwnsDeeds target.next) (spills : inner.SpillsIn start target)
    (low : free < start) (high : inner.next ≤ target.next) :
    inner.SpillsIn start ⟨target.statements ++ source.statements,
      .store target.code.site place.container place.selector (.guarded source.code), none, source.next⟩ := by
  obtain ⟨before, between, behind, script, apart⟩ := spills
  simp only [Duty.areApart_append] at apart
  refine .intro before between (behind ++ source.hoisted) ?_ ?_
  · rw [hoisted] at script
    simp [hoisted, script]
  · rw [deferred_assignment left placed]
    simp only [Duty.areApart_append, Duty.areApart_singleton]
    refine ⟨⟨apart.1.1, apart.1.2, right.hoisted.apart (.inr high)⟩, right.deferred.apart (.inr high), ?_⟩
    rintro owner ⟨⟩
    exact .inl low

end Fragment

def Code.gate : Code → List Nat
  | .call callee _ => [callee]
  | _ => []

namespace Node

open Fragment

variable {h : Heap} {outer node : Node} {create : Bool} {free start next : Nat} {statements : List Statement}
  {codes : List Code} {nodes before behind : List Node}

def propertyValue : Node → Node
  | .property _ value => value
  | node => node

def items : Node → List Node
  | .array elements => elements
  | .object properties => properties.map propertyValue
  | .call _ arguments => arguments
  | _ => []

def itemsFrom (h : Heap) : Node → Nat → Except Error Nat
  | .call callee _, free => do return (← callee.compile h false free).next
  | _, free => .ok free

theorem compileAll_cons {first : Fragment} (head : node.compile h false free = .ok first)
    (tail : compileAll h nodes first.next = .ok (statements, codes, next)) :
    compileAll h (node :: nodes) free = .ok (first.statements ++ statements, first.code :: codes, next) := by
  rw [compileAll]
  exact bind_eq_ok.mpr ⟨first, head, bind_eq_ok.mpr ⟨_, tail, rfl⟩⟩

private theorem compileAll_of_compileProperties {properties : List Node}
    {keys : List (Value × Text)}
    (compiled : compileProperties h properties free = .ok (statements, keys, codes, next)) :
    compileAll h (properties.map propertyValue) free = .ok (statements, codes, next) := by
  induction properties generalizing free statements keys codes with
  | nil =>
    cases compiled
    rfl
  | cons property properties hypothesis =>
    cases property with
    | property key value =>
      obtain ⟨shown, first, statements, keys, codes, _, valueCompiled, othersCompiled, rfl, rfl, rfl⟩ :=
        parts_property compiled
      exact compileAll_cons valueCompiled (hypothesis othersCompiled)
    | _ => cases compiled

private theorem exists_of_compileAll_append
    (compiled : compileAll h (before ++ nodes) free = .ok (statements, codes, next)) :
    ∃ first second earlier later middle, compileAll h before free = .ok (first, earlier, middle) ∧
      compileAll h nodes middle = .ok (second, later, next) ∧ statements = first ++ second ∧
      codes = earlier ++ later := by
  induction before generalizing free statements codes with
  | nil => exact ⟨[], statements, [], codes, free, rfl, compiled, rfl, rfl⟩
  | cons node before hypothesis =>
    obtain ⟨fragment, statements, codes, nodeCompiled, othersCompiled, rfl, rfl⟩ := parts_cons compiled
    obtain ⟨first, second, earlier, later, middle, compiledFirst, compiledRest, rfl, rfl⟩ :=
      hypothesis othersCompiled
    exact ⟨fragment.statements ++ first, second, fragment.code :: earlier, later, middle,
      compileAll_cons nodeCompiled compiledFirst, compiledRest, (List.append_assoc _ _ _).symm, rfl⟩

theorem exists_of_compileAll_item
    (compiled : compileAll h (before ++ node :: behind) free = .ok (statements, codes, next)) :
    ∃ first second earlier later middle fragment, compileAll h before free = .ok (first, earlier, middle) ∧
      node.compile h false middle = .ok fragment ∧
      compileAll h behind fragment.next = .ok (second, later, next) ∧
      statements = first ++ (fragment.statements ++ second) ∧ codes = earlier ++ fragment.code :: later := by
  obtain ⟨first, rest, earlier, others, middle, compiledFirst, compiledRest, rfl, rfl⟩ :=
    exists_of_compileAll_append compiled
  obtain ⟨fragment, second, later, nodeCompiled, behindCompiled, rfl, rfl⟩ := parts_cons compiledRest
  exact ⟨first, second, earlier, later, middle, fragment, compiledFirst, nodeCompiled, behindCompiled, rfl, rfl⟩

private theorem standsIn_items {first second : List Statement} {earlier later : List Code}
    {middle : Nat}
    {fragment : Fragment} (beforeOwns : (Fragment.items first earlier middle).OwnsDeeds free)
    (behindOwns : (Fragment.items second later next).OwnsDeeds fragment.next) :
    fragment.StandsIn middle []
      (Fragment.items (first ++ (fragment.statements ++ second)) (earlier ++ fragment.code :: later) next) := by
  refine .intro (Statement.scriptAll first) (Statement.scriptAll second) (Code.scriptAll earlier)
    (Code.scriptAll later) ?_ ?_ ?_
  · simp [hoisted, Fragment.items]
  · simp [deferred, Fragment.items, Code.script, Code.scriptAll, map_behind_nil]
  · simp only [Duty.areApart_append]
    exact ⟨⟨⟨beforeOwns.hoisted.apart (.inl (Nat.le_refl _)), behindOwns.hoisted.apart (.inr (Nat.le_refl _))⟩,
      beforeOwns.deferred.apart (.inl (Nat.le_refl _))⟩, behindOwns.deferred.apart (.inr (Nat.le_refl _))⟩

/-- The items of a node are compiled one after the other, as a part of the node. -/
theorem exists_items {fragment : Fragment} (compiled : outer.compile h create free = .ok fragment)
    (items : outer.items ≠ []) :
    ∃ start statements codes next, outer.itemsFrom h free = .ok start ∧
      compileAll h outer.items start = .ok (statements, codes, next) ∧ free ≤ start ∧ next ≤ fragment.next ∧
      (Fragment.items statements codes next).StandsIn start fragment.code.gate fragment := by
  have whole {statements : List Statement} {codes : List Code} {next : Nat} {fragment : Fragment}
      (hoisted : fragment.hoisted = (Fragment.items statements codes next).hoisted)
      (deferred : fragment.deferred = (Fragment.items statements codes next).deferred) :
      (Fragment.items statements codes next).StandsIn free [] fragment := by
    refine .intro [] [] [] [] ?_ ?_ fun _ member => nomatch member
    · simp [hoisted]
    · simp [deferred, map_behind_nil]
  cases outer with
  | array elements =>
    obtain ⟨statements, codes, next, elementsCompiled, rfl⟩ := parts_array compiled
    exact ⟨free, statements, codes, next, rfl, elementsCompiled, Nat.le_refl _, Nat.le_refl _, whole rfl rfl⟩
  | object properties =>
    obtain ⟨statements, keys, codes, next, propertiesCompiled, rfl⟩ := parts_object compiled
    exact ⟨free, statements, codes, next, rfl, compileAll_of_compileProperties propertiesCompiled,
      Nat.le_refl _, Nat.le_refl _, whole rfl rfl⟩
  | call callee arguments =>
    obtain ⟨target, statements, codes, next, calleeCompiled, argumentsCompiled, rfl⟩ := parts_call compiled
    have called := (becomes_of_compile callee calleeCompiled).ownsDeeds
    refine ⟨target.next, statements, codes, next, ?_, argumentsCompiled, called.advance, Nat.le_succ next,
      (parts_of_call called (ownsDeeds_items argumentsCompiled)).2⟩
    rw [itemsFrom, calleeCompiled]
    rfl
  | _ => exact absurd rfl items

theorem lies_items {fragment : Fragment} {gates : List Nat} {script : List Duty}
    (compiled : outer.compile h create free = .ok fragment) (lies : fragment.LiesIn free gates script)
    (items : outer.items ≠ []) (starts : outer.itemsFrom h free = .ok start) :
    ∃ statements codes next, compileAll h outer.items start = .ok (statements, codes, next) ∧
      (Fragment.items statements codes next).LiesIn start (gates ++ fragment.code.gate) script := by
  obtain ⟨_, statements, codes, next, same, itemsCompiled, low, high, stands⟩ := exists_items compiled items
  cases starts.symm.trans same
  exact ⟨statements, codes, next, itemsCompiled, lies.standing stands low high⟩

theorem lies_item {fragment : Fragment} {gates : List Nat} {script : List Duty}
    (compiled : outer.compile h create free = .ok fragment) (lies : fragment.LiesIn free gates script)
    (items : outer.items = before ++ node :: behind) (starts : outer.itemsFrom h free = .ok start)
    (earlier : compileAll h before start = .ok (statements, codes, next)) :
    ∃ item, node.compile h false next = .ok item ∧ item.LiesIn next (gates ++ fragment.code.gate) script := by
  obtain ⟨_, _, last, itemsCompiled, among⟩ := lies_items compiled lies (by simp [items]) starts
  rw [items] at itemsCompiled
  obtain ⟨first, second, _, later, middle, item, same, itemCompiled, behindCompiled, rfl, rfl⟩ :=
    exists_of_compileAll_item itemsCompiled
  cases earlier.symm.trans same
  have beforeOwns := ownsDeeds_items earlier
  have behindOwns := ownsDeeds_items behindCompiled
  have stands := standsIn_items beforeOwns behindOwns
  refine ⟨item, itemCompiled, ?_⟩
  have whole := among.standing stands beforeOwns.advance behindOwns.advance
  rwa [List.append_nil] at whole

theorem exists_subject {subject key : Node} {computed : Bool} {fragment : Fragment}
    (compiled : (Node.member subject key computed).compile h create free = .ok fragment) :
    ∃ inner, subject.compile h create (free + 1) = .ok inner ∧ inner.SpillsIn (free + 1) fragment ∧
      inner.next ≤ fragment.next := by
  cases computed with
  | true =>
    obtain ⟨inner, index, subjectCompiled, keyCompiled, rfl⟩ := parts_computed compiled
    have left := (becomes_of_compile subject subjectCompiled).ownsDeeds
    have right := (becomes_of_compile key keyCompiled).ownsDeeds
    have room := (inner.next_le_settled).trans right.advance
    exact ⟨inner, subjectCompiled, (spillsIn_computed left right create _).1, Nat.le_succ_of_le room⟩
  | false =>
    obtain ⟨inner, name, subjectCompiled, _, _, rfl⟩ := parts_named compiled
    have left := (becomes_of_compile subject subjectCompiled).ownsDeeds
    exact ⟨inner, subjectCompiled, spillsIn_named left _ create _, inner.next_le_settled⟩

theorem exists_key {subject key : Node} {inner fragment : Fragment}
    (compiled : (Node.member subject key true).compile h create free = .ok fragment)
    (left : subject.compile h create (free + 1) = .ok inner) :
    ∃ index, key.compile h false inner.settled.next = .ok index ∧
      index.SpillsIn inner.settled.next fragment ∧ free < inner.settled.next ∧ index.next ≤ fragment.next := by
  obtain ⟨_, index, same, keyCompiled, rfl⟩ := parts_computed compiled
  cases left.symm.trans same
  have subjectOwns := (becomes_of_compile subject left).ownsDeeds
  have right := (becomes_of_compile key keyCompiled).ownsDeeds
  have above := subjectOwns.advance
  have settled := inner.next_le_settled
  exact ⟨index, keyCompiled, (spillsIn_computed subjectOwns right create _).2, by omega, Nat.le_succ _⟩

private theorem exists_callee {callee : Node} {arguments : List Node} {fragment : Fragment}
    (compiled : (Node.call callee arguments).compile h create free = .ok fragment) :
    ∃ target, callee.compile h false free = .ok target ∧ target.SpillsIn free fragment ∧
      target.next ≤ fragment.next := by
  obtain ⟨target, statements, codes, next, calleeCompiled, argumentsCompiled, rfl⟩ := parts_call compiled
  have handed := ownsDeeds_items argumentsCompiled
  exact ⟨target, calleeCompiled, (parts_of_call ((becomes_of_compile callee calleeCompiled).ownsDeeds) handed).1,
    Nat.le_succ_of_le handed.advance⟩

theorem exists_sides {left right : Node} {fragment : Fragment}
    (compiled : (Node.assignment left right).compile h create free = .ok fragment) :
    ∃ target source, left.compile h true free = .ok target ∧ right.compile h false target.next = .ok source ∧
      source.StandsIn target.next [] fragment ∧ free ≤ target.next ∧ target.next ≤ source.next ∧
      source.next = fragment.next ∧
      ∀ (inner : Fragment) (start : Nat), inner.SpillsIn start target → free < start →
        inner.next ≤ target.next → inner.SpillsIn start fragment := by
  obtain ⟨target, place, source, leftCompiled, placed, rightCompiled, rfl⟩ := parts_assignment compiled
  have assigned := (becomes_of_compile left leftCompiled).ownsDeeds
  have value := (becomes_of_compile right rightCompiled).ownsDeeds
  exact ⟨target, source, leftCompiled, rightCompiled, standsIn_assignment assigned placed source,
    assigned.advance, value.advance, rfl,
    fun inner start spills low high => spillsIn_assignment assigned placed value spills low high⟩

/-- A node occurs in a tree, and is compiled there with the given choice to create missing places, from the
given slot on. The left side of an assignment is no such node, as it is not read for its value alone. -/
inductive Occurs (h : Heap) (root : Node) : Node → Bool → Nat → Prop where
  | root : Occurs h root root false 0
  /-- An element, the value of a property or an argument, behind the items before it. -/
  | item {outer node : Node} {create : Bool} {free start next : Nat} {before behind : List Node}
      {statements : List Statement} {codes : List Code} (occurs : Occurs h root outer create free)
      (items : outer.items = before ++ node :: behind) (starts : outer.itemsFrom h free = .ok start)
      (earlier : compileAll h before start = .ok (statements, codes, next)) : Occurs h root node false next
  | subject {subject key : Node} {computed create : Bool} {free : Nat}
      (occurs : Occurs h root (.member subject key computed) create free) :
      Occurs h root subject create (free + 1)
  | key {subject key : Node} {create : Bool} {free : Nat} {inner : Fragment}
      (occurs : Occurs h root (.member subject key true) create free)
      (left : subject.compile h create (free + 1) = .ok inner) : Occurs h root key false inner.settled.next
  | callee {callee : Node} {arguments : List Node} {create : Bool} {free : Nat}
      (occurs : Occurs h root (.call callee arguments) create free) : Occurs h root callee false free
  | targetSubject {subject key right : Node} {computed create : Bool} {free : Nat}
      (occurs : Occurs h root (.assignment (.member subject key computed) right) create free) :
      Occurs h root subject true (free + 1)
  | targetKey {subject key right : Node} {create : Bool} {free : Nat} {inner : Fragment}
      (occurs : Occurs h root (.assignment (.member subject key true) right) create free)
      (left : subject.compile h true (free + 1) = .ok inner) : Occurs h root key false inner.settled.next
  | source {left right : Node} {create : Bool} {free : Nat} {target : Fragment}
      (occurs : Occurs h root (.assignment left right) create free)
      (compiled : left.compile h true free = .ok target) : Occurs h root right false target.next

/-- What occurs in a tree that compiles is compiled, and lies in the script of the whole. -/
theorem Occurs.lies {root : Node} {whole : Fragment} (rootCompiled : root.compile h false 0 = .ok whole)
    (occurs : Occurs h root node create free) :
    ∃ fragment gates, node.compile h create free = .ok fragment ∧
      fragment.LiesIn free gates (whole.hoisted ++ whole.deferred) := by
  -- By the path from the root: a part either stands in its outer node, or is spilled before it.
  induction occurs with
  | root => exact ⟨whole, [], rootCompiled, liesIn_self whole 0⟩
  | item _ items starts earlier hypothesis =>
    obtain ⟨outer, gates, outerCompiled, lies⟩ := hypothesis
    obtain ⟨item, compiled, within⟩ := lies_item outerCompiled lies items starts earlier
    exact ⟨item, _, compiled, within⟩
  | subject _ hypothesis =>
    obtain ⟨outer, gates, outerCompiled, lies⟩ := hypothesis
    obtain ⟨inner, compiled, spills, high⟩ := exists_subject outerCompiled
    exact ⟨inner, [], compiled, lies.spilled spills (Nat.le_succ _) high⟩
  | key _ left hypothesis =>
    obtain ⟨outer, gates, outerCompiled, lies⟩ := hypothesis
    obtain ⟨index, compiled, spills, low, high⟩ := exists_key outerCompiled left
    exact ⟨index, [], compiled, lies.spilled spills (Nat.le_of_lt low) high⟩
  | callee _ hypothesis =>
    obtain ⟨outer, gates, outerCompiled, lies⟩ := hypothesis
    obtain ⟨target, compiled, spills, high⟩ := exists_callee outerCompiled
    exact ⟨target, [], compiled, lies.spilled spills (Nat.le_refl _) high⟩
  | targetSubject _ hypothesis =>
    obtain ⟨outer, gates, outerCompiled, lies⟩ := hypothesis
    obtain ⟨target, source, leftCompiled, _, _, _, above, same, spilling⟩ := exists_sides outerCompiled
    obtain ⟨inner, compiled, spills, high⟩ := exists_subject leftCompiled
    exact ⟨inner, [], compiled, lies.spilled (spilling inner _ spills (Nat.lt_succ_self _) high)
      (Nat.le_succ _) (by omega)⟩
  | targetKey _ left hypothesis =>
    obtain ⟨outer, gates, outerCompiled, lies⟩ := hypothesis
    obtain ⟨target, source, leftCompiled, _, _, _, above, same, spilling⟩ := exists_sides outerCompiled
    obtain ⟨index, compiled, spills, low, high⟩ := exists_key leftCompiled left
    exact ⟨index, [], compiled, lies.spilled (spilling index _ spills low high) (Nat.le_of_lt low) (by omega)⟩
  | source _ leftCompiled hypothesis =>
    obtain ⟨outer, gates, outerCompiled, lies⟩ := hypothesis
    obtain ⟨target, source, same, rightCompiled, stands, low, _, high, _⟩ := exists_sides outerCompiled
    cases leftCompiled.symm.trans same
    exact ⟨source, _, rightCompiled, lies.standing stands low (Nat.le_of_eq high)⟩

end Node

end GuardedExpr

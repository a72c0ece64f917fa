import GuardedExpr.Proofs.Code.CompileVerdict
import GuardedExpr.Proofs.Code.NodeOccurrences
import GuardedExpr.Proofs.Run.MissingPlaces

/-!
Where the writes in code come from. Code that stores a member was made of an assignment that occurs in the tree, and
statements that create a member were made of nodes on the way to the target of one; and such a statement asks, right
before it creates the member, whether there is none yet, or a false one.
-/

namespace GuardedExpr

namespace Node

variable {h : Heap} {root node child index : Node} {create computed : Bool} {free : Nat}

/-- A node on the way to what an assignment in the tree writes to, compiled from the given slot on: the left side
itself, and the subjects of members that are on the way. -/
inductive OnTarget (h : Heap) (root : Node) : Node → Nat → Prop where
  | left {left right : Node} {create : Bool} {free : Nat}
      (occurs : root.Occurs h (.assignment left right) create free) : OnTarget h root left free
  | subject {subject key : Node} {computed : Bool} {free : Nat}
      (on : OnTarget h root (.member subject key computed) free) : OnTarget h root subject (free + 1)

def AllOccur (h : Heap) (root : Node) (nodes : List Node) (free : Nat) : Prop :=
  ∀ before node behind statements codes next, nodes = before ++ node :: behind →
    compileAll h before free = .ok (statements, codes, next) → root.Occurs h node false next

/-- A node that occurs in the tree, what an assignment that does writes to, or some last items of a node that does. -/
inductive Serves (h : Heap) (root : Node) : Node → Bool → Nat → Prop where
  | alone {node : Node} {create : Bool} {free : Nat} (occurs : root.Occurs h node create free) :
      Serves h root node create free
  | target {left right : Node} {create : Bool} {free : Nat}
      (occurs : root.Occurs h (.assignment left right) create free) (assignable : left.isAssignable) :
      Serves h root left true free
  | items {nodes : List Node} {create : Bool} {free : Nat} (occur : root.AllOccur h nodes free) :
      Serves h root (.array nodes) create free
  | values {properties : List Node} {create : Bool} {free : Nat}
      (occur : root.AllOccur h (properties.map propertyValue) free) : Serves h root (.object properties) create free

theorem Occurs.onTarget (occurs : root.Occurs h node create free) (creates : create = true) :
    root.OnTarget h node free := by
  induction occurs with
  | subject _ ih => exact .subject (ih creates)
  | targetSubject occurs _ => exact .subject (.left occurs)
  | _ => cases creates

theorem Serves.onTarget (serves : root.Serves h node true free) (assignable : node.isAssignable) :
    root.OnTarget h node free := by
  cases serves with
  | alone occurs => exact occurs.onTarget rfl
  | target occurs _ => exact .left occurs
  | items | values => cases assignable

theorem Serves.call {callee : Node} {arguments : List Node}
    (serves : root.Serves h (.call callee arguments) create free) :
    root.Occurs h (.call callee arguments) create free := by
  cases serves with
  | alone occurs => exact occurs
  | target _ assignable => cases assignable

theorem Serves.assignment {left right : Node} (serves : root.Serves h (.assignment left right) create free) :
    root.Occurs h (.assignment left right) create free := by
  cases serves with
  | alone occurs => exact occurs
  | target _ assignable => cases assignable

theorem Serves.subject (serves : root.Serves h (.member child index computed) create free) :
    root.Occurs h child create (free + 1) := by
  cases serves with
  | alone occurs => exact .subject occurs
  | target occurs _ => exact .targetSubject occurs

theorem Serves.key {inner : Fragment} (serves : root.Serves h (.member child index true) create free)
    (compiled : child.compile h create (free + 1) = .ok inner) :
    root.Occurs h index false inner.settled.next := by
  cases serves with
  | alone occurs => exact .key occurs compiled
  | target occurs _ => exact .targetKey occurs compiled

theorem AllOccur.head {nodes : List Node} (occur : root.AllOccur h (node :: nodes) free) :
    root.Occurs h node false free :=
  occur [] node nodes [] [] free rfl rfl

theorem AllOccur.tail {nodes : List Node} (occur : root.AllOccur h (node :: nodes) free) {first : Fragment}
    (compiled : node.compile h false free = .ok first) : root.AllOccur h nodes first.next := by
  intro before other behind statements codes next split earlier
  exact occur (node :: before) other behind _ _ next (by rw [split, List.cons_append])
    (compileAll_cons compiled earlier)

theorem Occurs.items {start : Nat} (occurs : root.Occurs h node create free)
    (starts : node.itemsFrom h free = .ok start) : root.AllOccur h node.items start :=
  fun _ _ _ _ _ _ split earlier => .item occurs split starts earlier

theorem Serves.allItems {nodes : List Node} (serves : root.Serves h (.array nodes) create free) :
    root.AllOccur h nodes free := by
  cases serves with
  | alone occurs => exact occurs.items rfl
  | target _ assignable => cases assignable
  | items occur => exact occur

theorem Serves.allValues {properties : List Node} (serves : root.Serves h (.object properties) create free) :
    root.AllOccur h (properties.map propertyValue) free := by
  cases serves with
  | alone occurs => exact occurs.items rfl
  | target _ assignable => cases assignable
  | values occur => exact occur

inductive Stores (h : Heap) (root : Node) : Nat → Place → Prop where
  | intro {left right : Node} {create : Bool} {free : Nat} {target : Fragment} {place : Place}
      (occurs : root.Occurs h (.assignment left right) create free)
      (compiled : left.compile h true free = .ok target) (placed : target.place = some place) :
      Stores h root target.code.site place

inductive Fills (h : Heap) (root : Node) : Place → Prop where
  | intro {subject key : Node} {computed : Bool} {free : Nat} {fragment : Fragment} {place : Place}
      (on : root.OnTarget h (.member subject key computed) free)
      (compiled : (Node.member subject key computed).compile h true free = .ok fragment)
      (placed : fragment.place = some place) : Fills h root place

end Node

def Code.isPlace : Code → Bool
  | .owner _ => true
  | code => code.isPlain

theorem Code.isPlace_of_isPlain {code : Code} (plain : code.isPlain) : code.isPlace := by
  cases code with
  | owner name => rfl
  | _ => exact plain

namespace Code

variable {h : Heap} {root : Node}

mutual

def IsSited (h : Heap) (root : Node) : Code → Prop
  | .array items => AreSited h root items
  | .object _ values => AreSited h root values
  | .member container _ => container.isPlace
  | .guarded code => code.IsSited h root
  | .call _ arguments => AreSited h root arguments
  | .store site container selector value =>
    root.Stores h site ⟨container, selector⟩ ∧ container.isPlace ∧ value.IsSited h root
  | _ => True

def AreSited (h : Heap) (root : Node) : List Code → Prop
  | [] => True
  | code :: codes => code.IsSited h root ∧ AreSited h root codes

end

mutual

theorem isSited_of_isPlain : (code : Code) → code.isPlain → code.IsSited h root
  | .locals, _ | .scope, _ | .slot _, _ | .literal _ _, _ => trivial
  | .array items, plain => areSited_of_arePlain items plain
  | .object _ values, plain => areSited_of_arePlain values (Bool.and_eq_true_iff.mp plain).2

theorem areSited_of_arePlain : (codes : List Code) → arePlain codes → AreSited h root codes
  | [], _ => trivial
  | code :: codes, plain =>
    have both := Bool.and_eq_true_iff.mp plain
    ⟨isSited_of_isPlain code both.1, areSited_of_arePlain codes both.2⟩

end

private theorem isSited_of_isPlace {code : Code} (place : code.isPlace) : code.IsSited h root := by
  cases code with
  | owner name => trivial
  | _ => exact isSited_of_isPlain _ place

private theorem areSited_map_guarded {codes : List Code} (sited : AreSited h root codes) :
    AreSited h root (codes.map .guarded) := by
  induction codes with
  | nil => trivial
  | cons code codes ih => exact ⟨sited.1, ih sited.2⟩

end Code

def Question.IsSited (h : Heap) (root : Node) : Question → Prop
  | .has container _ => container.isPlace
  | .holds code => code.IsSited h root

inductive Statement.IsSited (h : Heap) (root : Node) : Statement → Prop where
  | assign {slot : Nat} {code : Code} (sited : code.IsSited h root) : IsSited h root (.perform (.assign slot code))
  | guardedBy {conditions : List Condition} {slot : Nat} {code : Code}
      (asked : ∀ condition ∈ conditions, condition.question.IsSited h root) (sited : code.IsSited h root) :
      IsSited h root (.guardedBy conditions (.assign slot code))
  | name {name : Text} {free : Nat} (on : root.OnTarget h (.identifier name) free) :
      IsSited h root (.guardedBy [(Question.has .locals name).no, (Question.holds .scope).yes,
        (Question.has .scope name).no] (.create .scope (.name name)))
  | member {place : Place} (fills : root.Fills h place) (plain : place.container.isPlain) :
      IsSited h root (.guardedBy [(Question.holds (.member place.container place.selector)).no]
        (.create place.container place.selector))
  | checkObject {code : Code} (sited : code.IsSited h root) : IsSited h root (.checkObject code)
  | checkName (slot : Nat) : IsSited h root (.checkName slot)
  | checkFunction (slot : Nat) : IsSited h root (.checkFunction slot)
  | result {code : Code} (sited : code.IsSited h root) : IsSited h root (.result code)

abbrev Statement.AreSited (h : Heap) (root : Node) (statements : List Statement) : Prop :=
  ∀ statement ∈ statements, statement.IsSited h root

theorem Statement.AreSited.append {h : Heap} {root : Node} {first second : List Statement}
    (one : AreSited h root first) (other : AreSited h root second) : AreSited h root (first ++ second) :=
  List.forall_mem_append.mpr ⟨one, other⟩

structure Fragment.IsSited (h : Heap) (root : Node) (fragment : Fragment) : Prop where
  statements : Statement.AreSited h root fragment.statements
  code : fragment.code.IsSited h root
  place : ∀ place, fragment.place = some place → place.container.isPlace

namespace Fragment

variable {h : Heap} {root : Node} {fragment : Fragment}

theorem IsSited.spilled (sited : fragment.IsSited h root) : fragment.spilled.IsSited h root :=
  ⟨sited.statements.append (List.forall_mem_singleton.mpr (.assign sited.code)), trivial, by simp [Fragment.spilled]⟩

theorem IsSited.settled (sited : fragment.IsSited h root) : fragment.settled.IsSited h root :=
  fragment.settled_of (fun _ => sited.spilled) fun _ => sited

theorem IsSited.reread (sited : fragment.IsSited h root) (slot : Nat) :
    Statement.AreSited h root (fragment.reread slot) := by
  unfold Fragment.reread
  cases placed : fragment.place with
  | none => exact List.forall_mem_singleton.mpr (.assign sited.code)
  | some place =>
    have reads := sited.place place placed
    exact List.forall_mem_cons.mpr ⟨.checkObject (Code.isSited_of_isPlace reads),
      List.forall_mem_singleton.mpr (.assign reads)⟩

end Fragment

private theorem areSited_resolution {h : Heap} {root : Node} {name : Text} {create : Bool}
    {free : Nat}
    (creates : create = true → root.OnTarget h (.identifier name) free) :
    Statement.AreSited h root (resolution name create free) := by
  refine .append (.append (List.forall_mem_singleton.mpr (.guardedBy ?_ rfl)) ?_)
    (List.forall_mem_cons.mpr ⟨.guardedBy ?_ rfl, List.forall_mem_singleton.mpr (.checkObject trivial)⟩)
  · exact List.forall_mem_singleton.mpr rfl
  · cases create with
    | true => exact List.forall_mem_singleton.mpr (.name (creates rfl))
    | false => exact nofun
  · exact List.forall_mem_cons.mpr ⟨rfl, List.forall_mem_singleton.mpr trivial⟩

theorem areSited_access {h : Heap} {root : Node} {create : Bool} (place : Place) (plain : place.container.isPlain)
    (creates : create = true → root.Fills h place) (slot : Nat) :
    Statement.AreSited h root (access place.container place.selector create slot) := by
  refine .append ?_ (List.forall_mem_singleton.mpr (.guardedBy ?_ (Code.isPlace_of_isPlain plain)))
  · cases create with
    | true => exact List.forall_mem_singleton.mpr (.member (creates rfl) plain)
    | false => exact nofun
  · exact List.forall_mem_singleton.mpr (Code.isSited_of_isPlain place.container plain)

namespace Node

variable {h : Heap} {root node : Node} {create : Bool} {free : Nat} {fragment : Fragment}

theorem Becomes.isPlain (made : node.Becomes h create free fragment) (written : node.isWritten)
    (still : fragment.code.isVolatile = false) : fragment.code.isPlain := by
  induction made with
  | program | parameter => cases written
  | literal => exact written
  | this | locals | noItems | noProperties | identifier | computed | named => rfl
  | item _ _ head tail =>
    obtain ⟨one, others⟩ := Bool.and_eq_true_iff.mp written
    obtain ⟨first, rest⟩ := Bool.or_eq_false_iff.mp still
    exact Bool.and_eq_true_iff.mpr ⟨head one first, tail others rest⟩
  | property keyed _ _ head tail =>
    obtain ⟨both, others⟩ := Bool.and_eq_true_iff.mp written
    obtain ⟨keyWritten, valueWritten⟩ := Bool.and_eq_true_iff.mp both
    obtain ⟨first, rest⟩ := Bool.or_eq_false_iff.mp still
    have scalar := isScalar_of_propertyKey keyWritten keyed
    have one := head valueWritten first
    have further := tail others rest
    simp only [Code.isPlain, Bool.and_eq_true, beq_iff_eq] at further ⊢
    simp [Code.arePlain, scalar, further, one]
  | call | assignment => cases still

theorem Becomes.isPlain_settled (made : node.Becomes h create free fragment) (written : node.isWritten) :
    fragment.settled.code.isPlain :=
  fragment.settled_of (fun _ => rfl) (made.isPlain written)

/-- All writes in what a node of the tree becomes are those of the tree. -/
theorem Becomes.isSited (made : node.Becomes h create free fragment) (written : node.isWritten)
    (serves : root.Serves h node create free) : fragment.IsSited h root := by
  induction made with
  | program | parameter => cases written
  | literal | this | locals | noItems | noProperties => exact ⟨List.forall_mem_nil _, trivial, by simp [Fragment.inline]⟩
  | item one _ head tail =>
    obtain ⟨oneWritten, othersWritten⟩ := Bool.and_eq_true_iff.mp written
    have first := head oneWritten (.alone serves.allItems.head)
    have others := tail othersWritten (.items (serves.allItems.tail one.compiled))
    exact ⟨first.statements.append others.statements, ⟨first.code, others.code⟩, by simp⟩
  | property _ one _ head tail =>
    obtain ⟨bothWritten, othersWritten⟩ := Bool.and_eq_true_iff.mp written
    have first := head (Bool.and_eq_true_iff.mp bothWritten).2 (.alone serves.allValues.head)
    have others := tail othersWritten (.values (serves.allValues.tail one.compiled))
    exact ⟨first.statements.append others.statements, ⟨first.code, others.code⟩, by simp⟩
  | identifier =>
    refine ⟨areSited_resolution fun creates => ?_, trivial, ?_⟩
    · subst creates
      exact serves.onTarget rfl
    · rintro place ⟨⟩
      rfl
  | @computed _ _ _ free inner index subject key left right =>
    obtain ⟨one, other⟩ := Bool.and_eq_true_iff.mp written
    have container := (left one (.alone serves.subject)).settled
    have selected := (right other (.alone (serves.key subject.compiled))).spilled
    have plain := subject.isPlain_settled one
    refine ⟨((container.statements.append selected.statements).append
      (List.forall_mem_singleton.mpr (.checkName _))).append ?_, trivial, ?_⟩
    · refine areSited_access ⟨inner.settled.code, .slot index.next⟩ plain (fun creates => ?_) free
      subst creates
      exact .intro (serves.onTarget rfl) (Becomes.computed subject key).compiled rfl
    · rintro place ⟨⟩
      exact Code.isPlace_of_isPlain plain
  | @named _ name _ free inner subject checked left =>
    have one := (Bool.and_eq_true_iff.mp written).1
    have container := (left one (.alone serves.subject)).settled
    have plain := subject.isPlain_settled one
    refine ⟨container.statements.append ?_, trivial, ?_⟩
    · refine areSited_access ⟨inner.settled.code, .name name⟩ plain (fun creates => ?_) free
      subst creates
      exact .intro (serves.onTarget rfl) (Becomes.named subject checked).compiled rfl
    · rintro place ⟨⟩
      exact Code.isPlace_of_isPlain plain
  | @call callee arguments _ free next target _ _ calleeMade _ called handed =>
    obtain ⟨one, others⟩ := Bool.and_eq_true_iff.mp written
    have occurs := serves.call
    have starts : (Node.call callee arguments).itemsFrom h free = .ok target.next := by
      rw [itemsFrom, calleeMade.compiled]
      rfl
    have invoked := called one (.alone (.callee occurs))
    have given := handed others (.items (occurs.items starts))
    exact ⟨((invoked.statements.append given.statements).append (invoked.reread next)).append
      (List.forall_mem_singleton.mpr (.checkFunction next)), Code.areSited_map_guarded given.code, by simp⟩
  | assignment left placed _ assigned given =>
    obtain ⟨one, other⟩ := Bool.and_eq_true_iff.mp written
    have occurs := serves.assignment
    have target := assigned one (.target occurs (left.isAssignable placed))
    have value := given other (.alone (.source occurs left.compiled))
    exact ⟨target.statements.append value.statements,
      ⟨.intro occurs left.compiled placed, target.place _ placed, value.code⟩, by simp⟩

theorem isSited_assigner {body : Node} (written : body.isWritten) {fragment : Fragment}
    (compiled : (Node.assignment body .parameter).compile h false 0 = .ok fragment) :
    fragment.IsSited h (.assignment body .parameter) := by
  obtain ⟨target, place, source, leftCompiled, placed, rightCompiled, rfl⟩ := parts_assignment compiled
  have left := becomes_of_compile body leftCompiled
  have occurs : (Node.assignment body .parameter).Occurs h (.assignment body .parameter) false 0 := .root
  have assigned := left.isSited written (.target occurs (left.isAssignable placed))
  cases rightCompiled
  exact ⟨assigned.statements.append (List.forall_mem_nil _), ⟨.intro .root leftCompiled placed, assigned.place place placed, trivial⟩,
    by simp⟩

end Node

end GuardedExpr

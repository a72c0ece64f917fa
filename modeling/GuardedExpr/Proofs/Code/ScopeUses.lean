import GuardedExpr.Proofs.Code.QuietCode

/-!
How an expression comes to its scope. Where it does not refer to the scope as a whole, its code looks into the scope
under the names that are looked up, asks whether the scope is there, and passes it to the guard of objects only as the
receiver of a call under a name.
-/

namespace GuardedExpr

/-- How an expression comes to the scope: as a whole, by looking up a name, or as the receiver of a call. -/
inductive ScopeUse where
  | whole
  | name (name : Text)
  | receiver
  deriving DecidableEq

namespace Node

def receiverUses : Node → List ScopeUse
  | .identifier _ => [.receiver]
  | _ => []

mutual

def scopeUses : Node → List ScopeUse
  | .program body => body.scopeUses
  | .array elements => allScopeUses elements
  | .object properties => allScopeUses properties
  | .property _ value => value.scopeUses
  | .identifier name => [.name name]
  | .this => [.whole]
  | .member child index true => child.scopeUses ++ index.scopeUses
  | .member child _ false => child.scopeUses
  | .call callee arguments => callee.receiverUses ++ callee.scopeUses ++ allScopeUses arguments
  | .assignment left right => left.scopeUses ++ right.scopeUses
  | _ => []

def allScopeUses : List Node → List ScopeUse
  | [] => []
  | node :: nodes => node.scopeUses ++ allScopeUses nodes

end

end Node

variable {fine : ScopeUse → Prop}

namespace Code

mutual

inductive IsDiscreet (fine : ScopeUse → Prop) : Code → Prop where
  | locals : IsDiscreet fine .locals
  | slot (index : Nat) : IsDiscreet fine (.slot index)
  | literal {value : Value} (scalar : value.isScalar) (shown : Text) : IsDiscreet fine (.literal value shown)
  | array {items : List Code} (each : ∀ item ∈ items, IsDiscreet fine item) : IsDiscreet fine (.array items)
  | object {keys : List (Value × Text)} {values : List Code} (scalars : ∀ key ∈ keys, key.1.isScalar)
      (each : ∀ value ∈ values, IsDiscreet fine value) : IsDiscreet fine (.object keys values)
  | member {container : Code} {selector : Selector} (locates : Locates fine container selector) :
      IsDiscreet fine (.member container selector)
  | guarded {code : Code} (inner : IsDiscreet fine code) : IsDiscreet fine (.guarded code)
  | call {arguments : List Code} (callee : Nat) (each : ∀ argument ∈ arguments, IsDiscreet fine argument) :
      IsDiscreet fine (.call callee arguments)
  | store {site : Nat} {container value : Code} {selector : Selector} (locates : Locates fine container selector)
      (stored : IsDiscreet fine value) : IsDiscreet fine (.store site container selector value)

inductive Locates (fine : ScopeUse → Prop) : Code → Selector → Prop where
  | inside {container : Code} (discreet : IsDiscreet fine container) (selector : Selector) :
      Locates fine container selector
  | scope {name : Text} (looked : fine (.name name)) : Locates fine .scope (.name name)
  | owner {name : Text} (looked : fine (.name name)) : Locates fine (.owner name) (.name name)

end

end Code

inductive Question.IsDiscreet (fine : ScopeUse → Prop) : Question → Prop where
  | has {container : Code} (discreet : container.IsDiscreet fine) (name : Text) : IsDiscreet fine (.has container name)
  | holds {code : Code} (discreet : code.IsDiscreet fine) : IsDiscreet fine (.holds code)
  | hasName {name : Text} (looked : fine (.name name)) : IsDiscreet fine (.has .scope name)
  | holdsScope : IsDiscreet fine (.holds .scope)

inductive Action.IsDiscreet (fine : ScopeUse → Prop) : Action → Prop where
  | assign (slot : Nat) {code : Code} (discreet : code.IsDiscreet fine) : IsDiscreet fine (.assign slot code)
  | create {container : Code} {selector : Selector} (locates : container.Locates fine selector) :
      IsDiscreet fine (.create container selector)

inductive Statement.IsDiscreet (fine : ScopeUse → Prop) : Statement → Prop where
  | perform {action : Action} (discreet : action.IsDiscreet fine) : IsDiscreet fine (.perform action)
  | guardedBy {conditions : List Condition} {action : Action}
      (asked : ∀ condition ∈ conditions, condition.question.IsDiscreet fine) (discreet : action.IsDiscreet fine) :
      IsDiscreet fine (.guardedBy conditions action)
  | checkObject {code : Code} (discreet : code.IsDiscreet fine) : IsDiscreet fine (.checkObject code)
  | checkOwner {name : Text} (looked : fine (.name name)) (received : fine .receiver) :
      IsDiscreet fine (.checkObject (.owner name))
  | checkName (slot : Nat) : IsDiscreet fine (.checkName slot)
  | checkFunction (slot : Nat) : IsDiscreet fine (.checkFunction slot)
  | result {code : Code} (discreet : code.IsDiscreet fine) : IsDiscreet fine (.result code)

abbrev Statement.AreDiscreet (fine : ScopeUse → Prop) (statements : List Statement) : Prop :=
  ∀ statement ∈ statements, statement.IsDiscreet fine

theorem Statement.AreDiscreet.append {first second : List Statement} (one : AreDiscreet fine first)
    (other : AreDiscreet fine second) : AreDiscreet fine (first ++ second) :=
  List.forall_mem_append.mpr ⟨one, other⟩

open List (forall_mem_singleton forall_mem_cons forall_mem_append)

/-- What a node becomes, if it comes to the scope in the given ways alone. Only a name can be found in the scope. -/
structure Fragment.IsDiscreet (fine : ScopeUse → Prop) (node : Node) (fragment : Fragment) : Prop where
  statements : Statement.AreDiscreet fine fragment.statements
  code : fragment.code.IsDiscreet fine
  place : ∀ place, fragment.place = some place → place.container.IsDiscreet fine ∨
    ∃ name, node = .identifier name ∧ place = ⟨.owner name, .name name⟩ ∧ fine (.name name)

namespace Fragment

variable {node : Node} {fragment : Fragment}

theorem IsDiscreet.locates (discreet : fragment.IsDiscreet fine node) {place : Place}
    (placed : fragment.place = some place) : place.container.Locates fine place.selector := by
  rcases discreet.place place placed with inside | ⟨name, -, rfl, looked⟩
  · exact .inside inside place.selector
  · exact .owner looked

theorem IsDiscreet.spilled (discreet : fragment.IsDiscreet fine node) : fragment.spilled.IsDiscreet fine node :=
  ⟨discreet.statements.append (forall_mem_singleton.mpr (.perform (.assign _ discreet.code))), .slot _, nofun⟩

theorem IsDiscreet.settled (discreet : fragment.IsDiscreet fine node) : fragment.settled.IsDiscreet fine node :=
  fragment.settled_of (fun _ => discreet.spilled) fun _ => discreet

theorem IsDiscreet.reread (discreet : fragment.IsDiscreet fine node) (slot : Nat)
    (received : ∀ use ∈ node.receiverUses, fine use) : Statement.AreDiscreet fine (fragment.reread slot) := by
  unfold Fragment.reread
  cases placed : fragment.place with
  | none => exact forall_mem_singleton.mpr (.perform (.assign slot discreet.code))
  | some place =>
    refine forall_mem_cons.mpr ⟨?_,
      forall_mem_singleton.mpr (.perform (.assign slot (.member (discreet.locates placed))))⟩
    rcases discreet.place place placed with inside | ⟨name, rfl, rfl, looked⟩
    · exact .checkObject inside
    · exact .checkOwner looked (received .receiver List.mem_cons_self)

end Fragment

private theorem areDiscreet_resolution {name : Text} (looked : fine (.name name)) (create : Bool)
    (slot : Nat) :
    Statement.AreDiscreet fine (resolution name create slot) := by
  have locals : (Question.has .locals name).IsDiscreet fine := .has .locals name
  have scope : (Question.has .scope name).IsDiscreet fine := .hasName looked
  refine .append (.append (forall_mem_singleton.mpr (.guardedBy ?_ (.assign _ (.member (.inside .locals _))))) ?_)
    (forall_mem_cons.mpr ⟨.guardedBy ?_ (.assign _ (.member (.scope looked))),
      forall_mem_singleton.mpr (.checkObject (.slot slot))⟩)
  · exact forall_mem_singleton.mpr locals
  · cases create with
    | true =>
      refine forall_mem_singleton.mpr (.guardedBy ?_ (.create (.scope looked)))
      exact forall_mem_cons.mpr ⟨locals, forall_mem_cons.mpr ⟨.holdsScope, forall_mem_singleton.mpr scope⟩⟩
    | false => exact nofun
  · exact forall_mem_cons.mpr ⟨locals, forall_mem_singleton.mpr .holdsScope⟩

theorem areDiscreet_access {container : Code} (inside : container.IsDiscreet fine) (selector : Selector)
    (create : Bool) (slot : Nat) : Statement.AreDiscreet fine (access container selector create slot) := by
  have target : (Code.member container selector).IsDiscreet fine := .member (.inside inside selector)
  refine .append ?_ (forall_mem_singleton.mpr (.guardedBy (forall_mem_singleton.mpr (.holds inside))
    (.assign _ (.guarded target))))
  cases create with
  | true =>
    exact forall_mem_singleton.mpr (.guardedBy (forall_mem_singleton.mpr (.holds target))
      (.create (.inside inside selector)))
  | false => exact nofun

namespace Node

/-- What an expression becomes comes to the scope in no other way than the expression. -/
theorem Becomes.isDiscreet {h : Heap} {node : Node} {create : Bool} {free : Nat} {fragment : Fragment}
    (made : node.Becomes h create free fragment) (written : node.isWritten) (uses : ∀ use ∈ node.scopeUses, fine use)
    (never : ¬ fine .whole) : fragment.IsDiscreet fine node := by
  induction made with
  | program | parameter => cases written
  | literal => exact ⟨nofun, .literal written _, nofun⟩
  | this => exact absurd (uses .whole List.mem_cons_self) never
  | locals => exact ⟨nofun, .locals, nofun⟩
  | noItems => exact ⟨nofun, .array nofun, nofun⟩
  | noProperties => exact ⟨nofun, .object nofun nofun, nofun⟩
  | item _ _ head tail =>
    obtain ⟨one, others⟩ := Bool.and_eq_true_iff.mp written
    obtain ⟨ofFirst, ofOthers⟩ := forall_mem_append.mp uses
    have first := head one ofFirst
    have further := tail others ofOthers
    cases further.code with
    | array each =>
      exact ⟨first.statements.append further.statements, .array (forall_mem_cons.mpr ⟨first.code, each⟩), nofun⟩
  | property keyed _ _ head tail =>
    obtain ⟨both, others⟩ := Bool.and_eq_true_iff.mp written
    obtain ⟨keyWritten, valueWritten⟩ := Bool.and_eq_true_iff.mp both
    obtain ⟨ofFirst, ofOthers⟩ := forall_mem_append.mp uses
    have scalar := isScalar_of_propertyKey keyWritten keyed
    have first := head valueWritten ofFirst
    have further := tail others ofOthers
    cases further.code with
    | object scalars each =>
      exact ⟨first.statements.append further.statements,
        .object (forall_mem_cons.mpr ⟨scalar, scalars⟩) (forall_mem_cons.mpr ⟨first.code, each⟩), nofun⟩
  | @identifier name _ create free =>
    have looked := uses (.name name) List.mem_cons_self
    refine ⟨areDiscreet_resolution looked create free, .slot free, ?_⟩
    rintro place ⟨⟩
    exact .inr ⟨name, rfl, rfl, looked⟩
  | @computed _ _ create free _ _ _ _ left right =>
    obtain ⟨one, other⟩ := Bool.and_eq_true_iff.mp written
    obtain ⟨ofSubject, ofKey⟩ := forall_mem_append.mp uses
    have subject := (left one ofSubject).settled
    have key := (right other ofKey).spilled
    refine ⟨((subject.statements.append key.statements).append (forall_mem_singleton.mpr (.checkName _))).append
      (areDiscreet_access subject.code _ create free), .slot free, ?_⟩
    rintro place ⟨⟩
    exact .inl subject.code
  | @named _ _ create free _ _ _ left =>
    have subject := (left (Bool.and_eq_true_iff.mp written).1 uses).settled
    refine ⟨subject.statements.append (areDiscreet_access subject.code _ create free), .slot free, ?_⟩
    rintro place ⟨⟩
    exact .inl subject.code
  | @call _ _ _ _ next _ _ _ _ _ called handed =>
    obtain ⟨one, others⟩ := Bool.and_eq_true_iff.mp written
    obtain ⟨ofCallee, ofArguments⟩ := forall_mem_append.mp uses
    obtain ⟨received, looked⟩ := forall_mem_append.mp ofCallee
    have target := called one looked
    have arguments := handed others ofArguments
    refine ⟨((target.statements.append arguments.statements).append (target.reread next received)).append
      (forall_mem_singleton.mpr (.checkFunction next)), .call next ?_, nofun⟩
    cases arguments.code with
    | array each => exact List.forall_mem_map.mpr fun code member => .guarded (each code member)
  | assignment _ placed _ assigned given =>
    obtain ⟨one, other⟩ := Bool.and_eq_true_iff.mp written
    obtain ⟨ofLeft, ofRight⟩ := forall_mem_append.mp uses
    have target := assigned one ofLeft
    have value := given other ofRight
    exact ⟨target.statements.append value.statements,
      .store (target.locates placed) (.guarded value.code), nofun⟩

end Node

end GuardedExpr

import GuardedExpr.Proofs.Code.CompilationRules
import GuardedExpr.Proofs.Code.DeedScripts

/-!
The share of a node in a script. What a node becomes has one part of its deeds in statements, which run before
the statement that the node stands in, and the other in its code, which runs where it stands. The deeds of a
node have the slots that the node was given, so nodes that stand side by side have nothing in common.
-/

namespace GuardedExpr

namespace Deed

/-- The slot that tells a call or an assignment from all others. -/
def owner? : Deed → Option Nat
  | .create _ => none
  | .store site => some site
  | .call slot => some slot

def IsWithin (free next : Nat) (deed : Deed) : Prop :=
  ∀ owner ∈ deed.owner?, free ≤ owner ∧ owner < next

def IsApart (free next : Nat) (deed : Deed) : Prop :=
  ∀ owner ∈ deed.owner?, owner < free ∨ next ≤ owner

end Deed

namespace Duty

variable {free next start stop : Nat} {script rest : List Duty} {gates : List Nat}

abbrev AreWithin (free next : Nat) (script : List Duty) : Prop :=
  ∀ duty ∈ script, duty.deed.IsWithin free next

abbrev AreApart (free next : Nat) (script : List Duty) : Prop :=
  ∀ duty ∈ script, duty.deed.IsApart free next

theorem AreWithin.mono (within : AreWithin start stop script) (low : free ≤ start) (high : stop ≤ next) :
    AreWithin free next script := by
  intro duty member owner owns
  have bounds := within duty member owner owns
  omega

theorem AreApart.mono (apart : AreApart free next script) (low : free ≤ start) (high : stop ≤ next) :
    AreApart start stop script := by
  intro duty member owner owns
  have bounds := apart duty member owner owns
  omega

theorem AreWithin.apart (within : AreWithin free next script) (ordered : next ≤ start ∨ stop ≤ free) :
    AreApart start stop script := by
  intro duty member owner owns
  have bounds := within duty member owner owns
  omega

theorem areApart_nil : AreApart free next [] :=
  List.forall_mem_nil _

theorem areApart_append : AreApart free next (script ++ rest) ↔
    AreApart free next script ∧ AreApart free next rest :=
  List.forall_mem_append

theorem areWithin_append : AreWithin free next (script ++ rest) ↔
    AreWithin free next script ∧ AreWithin free next rest :=
  List.forall_mem_append

theorem areApart_behind : AreApart free next (script.map (behind gates)) ↔ AreApart free next script :=
  List.forall_mem_map

private theorem areWithin_behind :
    AreWithin free next (script.map (behind gates)) ↔ AreWithin free next script :=
  List.forall_mem_map

theorem areApart_singleton {deed : Deed} : AreApart free next [deed.toDuty] ↔ deed.IsApart free next :=
  List.forall_mem_singleton

theorem areWithin_singleton {deed : Deed} : AreWithin free next [deed.toDuty] ↔ deed.IsWithin free next :=
  List.forall_mem_singleton

theorem behind_behind (outer inner : List Nat) (duty : Duty) :
    (duty.behind inner).behind outer = duty.behind (outer ++ inner) := by
  simp [behind]

end Duty

def creation (create : Bool) (selector : Selector) : List Duty :=
  if create then [Deed.toDuty (.create selector)] else []

theorem areWithin_creation (create : Bool) (selector : Selector) (free next : Nat) :
    Duty.AreWithin free next (creation create selector) := by
  cases create with
  | false => exact fun _ member => nomatch member
  | true => exact List.forall_mem_singleton.mpr fun _ owns => nomatch owns

theorem areApart_creation (create : Bool) (selector : Selector) (free next : Nat) :
    Duty.AreApart free next (creation create selector) :=
  (areWithin_creation create selector 0 0).apart (.inl (Nat.zero_le free))

namespace Statement

@[simp]
theorem scriptAll_nil : scriptAll [] = [] :=
  rfl

@[simp]
theorem scriptAll_cons (statement : Statement) (statements : List Statement) :
    scriptAll (statement :: statements) = statement.script ++ scriptAll statements :=
  List.flatMap_cons

@[simp]
theorem scriptAll_append (first second : List Statement) :
    scriptAll (first ++ second) = scriptAll first ++ scriptAll second :=
  List.flatMap_append

theorem scriptAll_resolution (name : Text) (create : Bool) (slot : Nat) :
    scriptAll (resolution name create slot) = creation create (.name name) := by
  cases create <;>
    simp [resolution, creation, script, Question.yes, Question.no, Question.script, Action.script, Code.script]

theorem scriptAll_access {container : Code} (calm : container.script = []) (selector : Selector) (create : Bool)
    (slot : Nat) : scriptAll (access container selector create slot) = creation create selector := by
  cases create <;>
    simp [access, creation, script, Question.yes, Question.no, Question.script, Action.script, Code.script, calm]

end Statement

namespace Code

@[simp]
theorem scriptAll_append (first second : List Code) :
    scriptAll (first ++ second) = scriptAll first ++ scriptAll second := by
  induction first with
  | nil => rfl
  | cons code codes hypothesis => simp [scriptAll, hypothesis]

private theorem scriptAll_guarded (codes : List Code) :
    scriptAll (codes.map .guarded) = scriptAll codes := by
  induction codes with
  | nil => rfl
  | cons code codes hypothesis => simp [scriptAll, script, hypothesis]

end Code

namespace Fragment

def hoisted (fragment : Fragment) : List Duty :=
  Statement.scriptAll fragment.statements

def deferred (fragment : Fragment) : List Duty :=
  fragment.code.script

/-- The deeds of a fragment have the slots that it was given, and there are none in code that may be run
twice. -/
structure OwnsDeeds (free : Nat) (fragment : Fragment) : Prop where
  advance : free ≤ fragment.next
  hoisted : Duty.AreWithin free fragment.next fragment.hoisted
  deferred : Duty.AreWithin free fragment.next fragment.deferred
  calm : fragment.code.isVolatile = false → fragment.deferred = []
  place : ∀ place, fragment.place = some place →
    place.container.script = [] ∧ fragment.code = .slot free ∧ free < fragment.next

def items (statements : List Statement) (codes : List Code) (next : Nat) : Fragment :=
  ⟨statements, .array codes, none, next⟩

variable {free : Nat} {fragment index : Fragment}

theorem hoisted_spilled (fragment : Fragment) :
    fragment.spilled.hoisted = fragment.hoisted ++ fragment.deferred := by
  simp [hoisted, deferred, spilled, Statement.script, Action.script]

namespace OwnsDeeds

theorem hoisted_settled (owns : fragment.OwnsDeeds free) :
    fragment.settled.hoisted = fragment.hoisted ++ fragment.deferred := by
  refine fragment.settled_of (fun _ => fragment.hoisted_spilled) fun still => ?_
  rw [owns.calm still, List.append_nil]

theorem deferred_settled (owns : fragment.OwnsDeeds free) : fragment.settled.code.script = [] :=
  fragment.settled_of (fun _ => rfl) owns.calm

private theorem scriptAll_reread (owned : fragment.OwnsDeeds free) (slot : Nat) :
    Statement.scriptAll (fragment.reread slot) = fragment.deferred := by
  unfold reread
  cases placed : fragment.place with
  | none => simp [Fragment.deferred, Statement.script, Action.script]
  | some place =>
    obtain ⟨calm, same, _⟩ := owned.place place placed
    simp [Fragment.deferred, same, Statement.script, Action.script, Code.script, calm]

end OwnsDeeds

private theorem ownsDeeds_inline {code : Code} (calm : code.script = []) (free : Nat) :
    (inline code free).OwnsDeeds free where
  advance := Nat.le_refl _
  hoisted := nofun
  deferred := by
    intro duty member
    rw [deferred, inline, calm] at member
    cases member
  calm := fun _ => calm
  place := nofun

theorem OwnsDeeds.beside {rest : Fragment} {code : Code} (head : fragment.OwnsDeeds free)
    (tail : rest.OwnsDeeds fragment.next) (script : code.script = fragment.deferred ++ rest.deferred)
    (still : code.isVolatile = false → fragment.code.isVolatile = false ∧ rest.code.isVolatile = false) :
    OwnsDeeds free ⟨fragment.statements ++ rest.statements, code, none, rest.next⟩ where
  advance := Nat.le_trans head.advance tail.advance
  hoisted := by
    simp only [Fragment.hoisted, Statement.scriptAll_append]
    exact Duty.areWithin_append.mpr
      ⟨head.hoisted.mono (Nat.le_refl _) tail.advance, tail.hoisted.mono head.advance (Nat.le_refl _)⟩
  deferred := by
    rw [Fragment.deferred, script]
    exact Duty.areWithin_append.mpr
      ⟨head.deferred.mono (Nat.le_refl _) tail.advance, tail.deferred.mono head.advance (Nat.le_refl _)⟩
  calm := by
    intro calm
    obtain ⟨first, others⟩ := still calm
    rw [Fragment.deferred, script, head.calm first, tail.calm others, List.append_nil]
  place := nofun

theorem ownsDeeds_slot {statements : List Statement} {container : Code} {selector : Selector} {next : Nat}
    (below : free < next) (hoisted : Duty.AreWithin free next (Statement.scriptAll statements))
    (calm : container.script = []) :
    OwnsDeeds free ⟨statements, .slot free, some ⟨container, selector⟩, next⟩ where
  advance := Nat.le_of_lt below
  hoisted := hoisted
  deferred := nofun
  calm := fun _ => rfl
  place := by
    rintro place ⟨⟩
    exact ⟨calm, rfl, below⟩

theorem hoisted_named (subject : fragment.OwnsDeeds (free + 1)) (selector : Selector) (create : Bool)
    (place : Option Place) :
    (Fragment.mk (fragment.settled.statements ++ access fragment.settled.code selector create free) (.slot free)
      place fragment.settled.next).hoisted =
      fragment.hoisted ++ fragment.deferred ++ creation create selector := by
  have settled := subject.hoisted_settled
  rw [hoisted] at settled ⊢
  rw [Statement.scriptAll_append, settled, Statement.scriptAll_access subject.deferred_settled]

theorem hoisted_computed (subject : fragment.OwnsDeeds (free + 1)) (index : Fragment) (create : Bool)
    (place : Option Place) :
    (Fragment.mk (fragment.settled.statements ++ index.spilled.statements ++ [.checkName index.next] ++
        access fragment.settled.code (.slot index.next) create free) (.slot free) place (index.next + 1)).hoisted =
      fragment.hoisted ++ fragment.deferred ++ (index.hoisted ++ index.deferred) ++
        creation create (.slot index.next) := by
  have settled := subject.hoisted_settled
  have key := index.hoisted_spilled
  rw [hoisted] at settled key ⊢
  simp [settled, key, Statement.scriptAll_access subject.deferred_settled, Statement.script]

theorem hoisted_call (callee : fragment.OwnsDeeds free) (statements : List Statement) (code : Code) (next : Nat) :
    (Fragment.mk (fragment.statements ++ statements ++ fragment.reread next ++ [.checkFunction next]) code none
      (next + 1)).hoisted = fragment.hoisted ++ Statement.scriptAll statements ++ fragment.deferred := by
  simp [hoisted, callee.scriptAll_reread, Statement.script]

theorem deferred_call (statements : List Statement) (codes : List Code) (next : Nat) :
    (Fragment.mk statements (.call next (codes.map .guarded)) none (next + 1)).deferred =
      (Code.scriptAll codes ++ [Deed.toDuty (.call next)]).map (Duty.behind [next]) := by
  simp only [deferred, Code.script, Code.scriptAll_guarded]

theorem deferred_assignment {place : Place} (target : fragment.OwnsDeeds free) (placed : fragment.place = some place)
    (statements : List Statement) (source : Fragment) :
    (Fragment.mk statements (.store fragment.code.site place.container place.selector (.guarded source.code))
      none source.next).deferred = source.deferred ++ [Deed.toDuty (.store free)] := by
  obtain ⟨calm, same, _⟩ := target.place place placed
  simp [deferred, Code.script, calm, same, Code.site]

private theorem ownsDeeds_named (subject : fragment.OwnsDeeds (free + 1)) (selector : Selector)
    (create : Bool) :
    OwnsDeeds free ⟨fragment.settled.statements ++ access fragment.settled.code selector create free, .slot free,
      some ⟨fragment.settled.code, selector⟩, fragment.settled.next⟩ := by
  have above := subject.advance
  have settled := fragment.next_le_settled
  refine ownsDeeds_slot (by omega) ?_ subject.deferred_settled
  have script := hoisted_named subject selector create none
  rw [hoisted] at script
  rw [script]
  simp only [Duty.areWithin_append]
  exact ⟨⟨subject.hoisted.mono (by omega) (by omega), subject.deferred.mono (by omega) (by omega)⟩,
    areWithin_creation create _ free _⟩

private theorem ownsDeeds_computed (subject : fragment.OwnsDeeds (free + 1))
    (key : index.OwnsDeeds fragment.settled.next)
    (create : Bool) :
    OwnsDeeds free ⟨fragment.settled.statements ++ index.spilled.statements ++ [.checkName index.next] ++
        access fragment.settled.code (.slot index.next) create free,
      .slot free, some ⟨fragment.settled.code, .slot index.next⟩, index.next + 1⟩ := by
  have above := subject.advance
  have settled := fragment.next_le_settled
  have beyond := key.advance
  refine ownsDeeds_slot (by omega) ?_ subject.deferred_settled
  have script := hoisted_computed subject index create none
  rw [hoisted] at script
  rw [script]
  simp only [Duty.areWithin_append]
  exact ⟨⟨⟨subject.hoisted.mono (by omega) (by omega), subject.deferred.mono (by omega) (by omega)⟩,
    key.hoisted.mono (by omega) (by omega), key.deferred.mono (by omega) (by omega)⟩,
    areWithin_creation create _ free _⟩

/-- The call itself comes behind the deeds of its arguments, and has the last slot. -/
theorem ownsDeeds_call {statements : List Statement} {codes : List Code} {next : Nat}
    (callee : fragment.OwnsDeeds free) (arguments : (items statements codes next).OwnsDeeds fragment.next) :
    OwnsDeeds free ⟨fragment.statements ++ statements ++ fragment.reread next ++ [.checkFunction next],
      .call next (codes.map .guarded), none, next + 1⟩ := by
  have above := callee.advance
  have beyond : fragment.next ≤ next := arguments.advance
  refine ⟨by show free ≤ next + 1; omega, ?_, ?_, nofun, nofun⟩
  · rw [hoisted_call callee]
    simp only [Duty.areWithin_append]
    exact ⟨⟨callee.hoisted.mono (Nat.le_refl _) (by omega), arguments.hoisted.mono above (Nat.le_succ next)⟩,
      callee.deferred.mono (Nat.le_refl _) (by omega)⟩
  · rw [deferred_call]
    refine Duty.areWithin_behind.mpr (Duty.areWithin_append.mpr
      ⟨arguments.deferred.mono above (Nat.le_succ next), Duty.areWithin_singleton.mpr ?_⟩)
    rintro owner ⟨⟩
    exact ⟨by omega, Nat.lt_succ_self next⟩

private theorem ownsDeeds_assignment {source : Fragment} {place : Place}
    (target : fragment.OwnsDeeds free)
    (placed : fragment.place = some place) (value : source.OwnsDeeds fragment.next) :
    OwnsDeeds free ⟨fragment.statements ++ source.statements,
      .store fragment.code.site place.container place.selector (.guarded source.code), none, source.next⟩ := by
  have below := (target.place place placed).2.2
  have above := value.advance
  refine ⟨by show free ≤ source.next; omega, ?_, ?_, nofun, nofun⟩
  · simp only [hoisted, Statement.scriptAll_append]
    exact Duty.areWithin_append.mpr ⟨target.hoisted.mono (Nat.le_refl _) above,
      value.hoisted.mono (by omega) (Nat.le_refl _)⟩
  · rw [deferred_assignment target placed]
    refine Duty.areWithin_append.mpr ⟨value.deferred.mono (by omega) (Nat.le_refl _),
      Duty.areWithin_singleton.mpr ?_⟩
    rintro owner ⟨⟩
    exact ⟨Nat.le_refl _, by show free < source.next; omega⟩

end Fragment

namespace Node

open Fragment

variable {h : Heap} {node : Node} {create : Bool} {free : Nat} {fragment : Fragment}

theorem Becomes.ownsDeeds (made : node.Becomes h create free fragment) : fragment.OwnsDeeds free := by
  induction made with
  | @program _ _ _ inner _ body =>
    refine ⟨body.advance, ?_, body.deferred, body.calm, nofun⟩
    have result : Statement.scriptAll [.result inner.code] = inner.deferred := by
      simp [Statement.script, deferred]
    simp only [hoisted, Statement.scriptAll_append, result]
    exact Duty.areWithin_append.mpr ⟨body.hoisted, body.deferred⟩
  | literal | this | locals | parameter | noItems | noProperties => exact ownsDeeds_inline rfl _
  | item _ _ head tail | property _ _ _ head tail => exact head.beside tail rfl Bool.or_eq_false_iff.mp
  | @identifier name _ create free =>
    refine ownsDeeds_slot (Nat.lt_succ_self free) ?_ rfl
    rw [Statement.scriptAll_resolution]
    exact areWithin_creation create _ free _
  | @computed _ _ create _ _ _ _ _ left right => exact ownsDeeds_computed left right create
  | @named _ name create _ _ _ _ left => exact ownsDeeds_named left (.name name) create
  | call _ _ called handed => exact ownsDeeds_call called handed
  | assignment _ placed _ assigned given => exact ownsDeeds_assignment assigned placed given

theorem ownsDeeds_items {nodes : List Node} {statements : List Statement} {codes : List Code} {next : Nat}
    (compiled : compileAll h nodes free = .ok (statements, codes, next)) :
    (items statements codes next).OwnsDeeds free :=
  (becomes_of_compileAll nodes false compiled).ownsDeeds

/-! Which expressions have deeds in their statements, and which in their code, can be told from the tree. -/

mutual

def defers : Node → Bool
  | .program body => body.defers
  | .array elements => anyDefers elements
  | .object properties => anyDefers properties
  | .property _ value => value.defers
  | .call _ _ => true
  | .assignment _ _ => true
  | _ => false

def anyDefers : List Node → Bool
  | [] => false
  | node :: nodes => node.defers || anyDefers nodes

end

mutual

/-- Whether an expression calls, assigns or creates places in its statements, before all that it is a part of: as
the subject or the computed key of a member, as the callee of a call, or on the left side of an assignment. -/
def hoists : Node → Bool
  | .program body => body.hoists || body.defers
  | .array elements => anyHoists elements
  | .object properties => anyHoists properties
  | .property _ value => value.hoists
  | .member subject key _ => subject.hoists || subject.defers || (key.hoists || key.defers)
  | .call callee arguments => callee.hoists || callee.defers || anyHoists arguments
  | .assignment _ _ => true
  | _ => false

def anyHoists : List Node → Bool
  | [] => false
  | node :: nodes => node.hoists || anyHoists nodes

end

theorem Becomes.deferred_eq_nil (made : node.Becomes h create free fragment) (still : node.defers = false) :
    fragment.deferred = [] := by
  induction made with
  | program _ ih => exact ih still
  | literal | this | locals | parameter | noItems | noProperties | identifier | computed | named => rfl
  | item _ _ head tail | property _ _ _ head tail =>
    obtain ⟨first, others⟩ := Bool.or_eq_false_iff.mp still
    exact List.append_eq_nil_iff.mpr ⟨head first, tail others⟩
  | call | assignment => cases still

theorem Becomes.hoisted_eq_nil (made : node.Becomes h create free fragment) (reads : create = false)
    (still : node.hoists = false) : fragment.hoisted = [] := by
  induction made with
  | @program _ _ _ inner made ih =>
    obtain ⟨calm, later⟩ := Bool.or_eq_false_iff.mp still
    have result : Statement.scriptAll [.result inner.code] = inner.deferred := by
      simp [Statement.script, deferred]
    simp only [hoisted, Statement.scriptAll_append, result, made.deferred_eq_nil later, List.append_nil]
    exact ih rfl calm
  | literal | this | locals | parameter | noItems | noProperties => rfl
  | item _ _ head tail | property _ _ _ head tail =>
    obtain ⟨first, others⟩ := Bool.or_eq_false_iff.mp still
    refine (Statement.scriptAll_append _ _).trans ?_
    exact List.append_eq_nil_iff.mpr ⟨head rfl first, tail reads others⟩
  | @identifier name _ _ free =>
    subst reads
    exact Statement.scriptAll_resolution name false free
  | @computed _ _ _ _ _ _ subject key left right =>
    subst reads
    obtain ⟨first, second⟩ := Bool.or_eq_false_iff.mp still
    obtain ⟨subjectCalm, subjectLater⟩ := Bool.or_eq_false_iff.mp first
    obtain ⟨keyCalm, keyLater⟩ := Bool.or_eq_false_iff.mp second
    refine (hoisted_computed subject.ownsDeeds _ false _).trans ?_
    rw [left rfl subjectCalm, subject.deferred_eq_nil subjectLater, right rfl keyCalm, key.deferred_eq_nil keyLater]
    rfl
  | @named _ name _ _ _ subject _ left =>
    subst reads
    obtain ⟨calm, later⟩ := Bool.or_eq_false_iff.mp (Bool.or_eq_false_iff.mp still).1
    refine (hoisted_named subject.ownsDeeds (.name name) false _).trans ?_
    rw [left rfl calm, subject.deferred_eq_nil later]
    rfl
  | @call _ _ _ _ next _ statements _ callee _ called handed =>
    obtain ⟨first, others⟩ := Bool.or_eq_false_iff.mp still
    obtain ⟨calm, later⟩ := Bool.or_eq_false_iff.mp first
    have arguments : Statement.scriptAll statements = [] := handed rfl others
    refine (hoisted_call callee.ownsDeeds statements _ next).trans ?_
    rw [called rfl calm, callee.deferred_eq_nil later, arguments]
    rfl
  | assignment => cases still

end Node

end GuardedExpr

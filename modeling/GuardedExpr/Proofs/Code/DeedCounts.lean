import GuardedExpr.Proofs.Code.CompileVerdict
import GuardedExpr.Proofs.Run.EffectOrder

/-!
How often things are done. The slot of a call or of an assignment stands once in the script of the whole, so what
it stands for is done once at most, however often the code around it is read again. And a script has no more calls
than its tree.
-/

namespace GuardedExpr

variable {σ : Type}

def Deed.isCall : Deed → Bool
  | .call _ => true
  | _ => false

namespace Duty

variable {free next owner : Nat} {deed : Deed} {kind : Deed → Bool} {script rest : List Duty} {gates : List Nat}

def times (kind : Deed → Bool) (script : List Duty) : Nat :=
  script.countP fun duty => kind duty.deed

@[simp]
theorem times_nil : times kind [] = 0 :=
  rfl

@[simp]
theorem times_append : times kind (script ++ rest) = times kind script + times kind rest :=
  List.countP_append

@[simp]
theorem times_behind : times kind (script.map (behind gates)) = times kind script :=
  List.countP_map

theorem times_creation_of_call (create : Bool) (selector : Selector) :
    times Deed.isCall (creation create selector) = 0 := by
  cases create <;> rfl

/-- A deed with a slot of its own is not among those that have other slots. -/
theorem times_eq_zero_of_apart (apart : AreApart free next script) (owns : deed.owner? = some owner)
    (low : free ≤ owner) (high : owner < next) : times (· = deed) script = 0 := by
  refine List.countP_eq_zero.mpr fun duty member is => ?_
  have bounds := apart duty member owner (by rw [of_decide_eq_true is]; exact owns)
  omega

theorem times_eq_zero_of_within (within : AreWithin free next script) (owns : deed.owner? = some owner)
    (outside : owner < free ∨ next ≤ owner) : times (· = deed) script = 0 := by
  refine List.countP_eq_zero.mpr fun duty member is => ?_
  have bounds := within duty member owner (by rw [of_decide_eq_true is]; exact owns)
  omega

end Duty

open Duty

namespace Event

private theorem any_is (event : Event) (deed : Deed) :
    event.deed?.any (· = deed) = decide (event.deed? = some deed) := by
  cases event.deed? <;> simp

/-- The deeds of a kind are as many as the events that tell of them. -/
theorem countP_deeds (kind : Deed → Bool) (journal : List Event) :
    (deeds journal).countP kind = journal.countP fun event => event.deed?.any kind := by
  induction journal with
  | nil => rfl
  | cons event journal hypothesis =>
    have split : deeds (event :: journal) = deeds journal ++ event.deed?.toList := by
      simp only [deeds, deedsAfter, List.map_append]
      cases event.deed? <;> rfl
    rw [split, List.countP_append, hypothesis, List.countP_cons]
    cases event.deed? <;> simp [List.countP_cons]

end Event

theorem Machine.Follows.countP_le {m last start : Machine σ} {host : Host σ} {script : List Duty}
    (follows : m.Follows host start script last) (fresh : m.journal = []) (kind : Deed → Bool) :
    (last.journal.countP fun event => event.deed?.any kind) ≤ times kind script := by
  obtain ⟨record, told⟩ := follows.told
  have deeds : Event.deeds last.journal = (record.map Prod.fst).map Duty.deed := by
    rw [Event.deeds, told.complete, fresh]
    simp [Event.deedsAfter]
  calc (last.journal.countP fun event => event.deed?.any kind)
    _ = (Event.deeds last.journal).countP kind := (Event.countP_deeds kind last.journal).symm
    _ = times kind (record.map Prod.fst) := by rw [deeds, List.countP_map]; rfl
    _ ≤ times kind script := told.ordered.countP_le

namespace Fragment

variable {fragment : Fragment} {free owner : Nat} {gates : List Nat} {script : List Duty} {deed : Deed}

/-- A deed with a slot of a fragment is in a script as often as in the fragment. -/
theorem LiesIn.times_eq (lies : fragment.LiesIn free gates script) (owns : deed.owner? = some owner)
    (low : free ≤ owner) (high : owner < fragment.next) :
    times (· = deed) script = times (· = deed) fragment.hoisted + times (· = deed) fragment.deferred := by
  obtain ⟨before, between, behind, rfl, apart⟩ := lies
  -- What stands around the parts of the fragment and between them has other slots.
  simp only [Duty.areApart_append] at apart
  simp only [times_append, times_behind, times_eq_zero_of_apart apart.1.1 owns low high,
    times_eq_zero_of_apart apart.1.2 owns low high, times_eq_zero_of_apart apart.2 owns low high]
  omega

def calls (fragment : Fragment) : Nat :=
  times Deed.isCall fragment.hoisted + times Deed.isCall fragment.deferred

/-- The parts of a call have its calls, and it has one of its own. -/
theorem calls_of_call {target : Fragment} (callee : target.OwnsDeeds free) (statements : List Statement) (codes : List Code)
    (next : Nat) :
    (Fragment.mk (target.statements ++ statements ++ target.reread next ++ [.checkFunction next])
      (.call next (codes.map .guarded)) none (next + 1)).calls =
      target.calls + (Fragment.items statements codes next).calls + 1 := by
  have own : times Deed.isCall [Deed.toDuty (.call next)] = 1 := rfl
  rw [calls, hoisted_call callee, deferred_call]
  simp only [times_append, times_behind, own, calls]
  simp only [Fragment.hoisted, Fragment.deferred, Fragment.items, Code.script]
  omega

theorem calls_of_assignment {target source : Fragment} {place : Place} (left : target.OwnsDeeds free)
    (placed : target.place = some place) :
    (Fragment.mk (target.statements ++ source.statements)
      (.store target.code.site place.container place.selector (.guarded source.code)) none source.next).calls =
      times Deed.isCall target.hoisted + source.calls := by
  have own : times Deed.isCall [Deed.toDuty (.store free)] = 0 := rfl
  rw [calls, deferred_assignment left placed]
  simp only [times_append, own, calls]
  simp only [Fragment.hoisted, Statement.scriptAll_append, times_append]
  omega

theorem calls_of_items (first : Fragment) (statements : List Statement) (codes : List Code) (next : Nat) :
    (Fragment.items (first.statements ++ statements) (first.code :: codes) next).calls =
      first.calls + (Fragment.items statements codes next).calls := by
  simp only [calls, Fragment.hoisted, Fragment.deferred, Fragment.items, Statement.scriptAll_append,
    times_append, Code.script, Code.scriptAll]
  omega

end Fragment

namespace Node

open Fragment

variable {h : Heap} {create : Bool} {free : Nat} {fragment : Fragment}

private theorem times_call {callee : Node} {arguments : List Node} {slot : Nat} {handed : List Code}
    (compiled : (Node.call callee arguments).compile h create free = .ok fragment)
    (code : fragment.code = .call slot handed) : free ≤ slot ∧ slot < fragment.next ∧
      times (· = .call slot) fragment.hoisted + times (· = .call slot) fragment.deferred = 1 := by
  obtain ⟨target, statements, codes, next, calleeCompiled, argumentsCompiled, rfl⟩ := parts_call compiled
  cases code
  have called := (becomes_of_compile callee calleeCompiled).ownsDeeds
  have given := ownsDeeds_items argumentsCompiled
  have above := called.advance
  have beyond : target.next ≤ slot := given.advance
  have owns : (Deed.call slot).owner? = some slot := rfl
  have first : times (· = .call slot) target.hoisted = 0 :=
    times_eq_zero_of_within called.hoisted owns (.inr beyond)
  have second : times (· = .call slot) (Statement.scriptAll statements) = 0 :=
    times_eq_zero_of_within given.hoisted owns (.inr (Nat.le_refl slot))
  have third : times (· = .call slot) target.deferred = 0 :=
    times_eq_zero_of_within called.deferred owns (.inr beyond)
  have fourth : times (· = .call slot) (Code.scriptAll codes) = 0 :=
    times_eq_zero_of_within given.deferred owns (.inr (Nat.le_refl slot))
  have own : times (· = .call slot) [Deed.toDuty (.call slot)] = 1 := by simp [times, Deed.toDuty]
  refine ⟨by omega, Nat.lt_succ_self _, ?_⟩
  rw [hoisted_call called, deferred_call]
  simp only [times_append, times_behind, first, second, third, fourth, own]

/-- The statements of a node that names a place have nothing with the slot that the place is read into. -/
theorem hoisted_of_isAssignable {node : Node} (assignable : node.isAssignable)
    (compiled : node.compile h create free = .ok fragment) : AreWithin (free + 1) fragment.next fragment.hoisted := by
  cases node with
  | identifier name =>
    obtain ⟨_, rfl⟩ := parts_identifier compiled
    show AreWithin (free + 1) (free + 1) (Statement.scriptAll (resolution name create free))
    rw [Statement.scriptAll_resolution]
    exact areWithin_creation create _ _ _
  | member subject key computed =>
    cases computed with
    | true =>
      obtain ⟨inner, index, subjectCompiled, keyCompiled, rfl⟩ := parts_computed compiled
      have left := (becomes_of_compile subject subjectCompiled).ownsDeeds
      have right := (becomes_of_compile key keyCompiled).ownsDeeds
      have above := left.advance
      have settled := inner.next_le_settled
      have beyond := right.advance
      rw [hoisted_computed left]
      simp only [Duty.areWithin_append]
      have room : inner.next ≤ index.next + 1 := by omega
      exact ⟨⟨⟨left.hoisted.mono (Nat.le_refl _) room, left.deferred.mono (Nat.le_refl _) room⟩,
        right.hoisted.mono (by omega) (Nat.le_succ _), right.deferred.mono (by omega) (Nat.le_succ _)⟩,
        areWithin_creation create _ _ _⟩
    | false =>
      obtain ⟨inner, name, subjectCompiled, _, _, rfl⟩ := parts_named compiled
      have left := (becomes_of_compile subject subjectCompiled).ownsDeeds
      have settled := inner.next_le_settled
      rw [hoisted_named left]
      simp only [Duty.areWithin_append]
      exact ⟨⟨left.hoisted.mono (Nat.le_refl _) settled, left.deferred.mono (Nat.le_refl _) settled⟩,
        areWithin_creation create _ _ _⟩
  | _ => cases assignable

private theorem times_assignment {left right : Node} {site : Nat} {container value : Code}
    {selector : Selector}
    (compiled : (Node.assignment left right).compile h create free = .ok fragment)
    (code : fragment.code = .store site container selector value) : free ≤ site ∧ site < fragment.next ∧
      times (· = .store site) fragment.hoisted + times (· = .store site) fragment.deferred = 1 := by
  obtain ⟨target, place, source, leftCompiled, placed, rightCompiled, rfl⟩ := parts_assignment compiled
  have assigned := (becomes_of_compile left leftCompiled).ownsDeeds
  have given := (becomes_of_compile right rightCompiled).ownsDeeds
  obtain ⟨_, slot, below⟩ := assigned.place place placed
  have above : target.next ≤ source.next := given.advance
  have same : free = site := by
    have sites := (Code.store.inj code).1
    rw [slot] at sites
    exact sites
  subst same
  have assignable := (becomes_of_compile left leftCompiled).isAssignable placed
  have owns : (Deed.store free).owner? = some free := rfl
  have first : times (· = .store free) target.hoisted = 0 :=
    times_eq_zero_of_within (hoisted_of_isAssignable assignable leftCompiled) owns (.inl (Nat.lt_succ_self free))
  have second : times (· = .store free) source.hoisted = 0 :=
    times_eq_zero_of_within given.hoisted owns (.inl below)
  have third : times (· = .store free) source.deferred = 0 :=
    times_eq_zero_of_within given.deferred owns (.inl below)
  have own : times (· = .store free) [Deed.toDuty (.store free)] = 1 := by simp [times, Deed.toDuty]
  have hoists : (Fragment.mk (target.statements ++ source.statements)
      (.store target.code.site place.container place.selector (.guarded source.code)) none source.next).hoisted =
      target.hoisted ++ source.hoisted := Statement.scriptAll_append _ _
  refine ⟨Nat.le_refl _, Nat.lt_of_lt_of_le below above, ?_⟩
  rw [deferred_assignment assigned placed, hoists]
  simp only [times_append, first, second, third, own]

/-! The calls of a tree. -/

mutual

def calls : Node → Nat
  | .program body => body.calls
  | .array elements => callsAll elements
  | .object properties => callsAll properties
  | .property key value => key.calls + value.calls
  | .member subject key _ => subject.calls + key.calls
  | .call callee arguments => callee.calls + callsAll arguments + 1
  | .assignment left right => left.calls + right.calls
  | _ => 0

def callsAll : List Node → Nat
  | [] => 0
  | node :: nodes => node.calls + callsAll nodes

end

theorem Becomes.calls_le {node : Node} (made : node.Becomes h create free fragment) (written : node.isWritten) :
    fragment.calls ≤ node.calls := by
  induction made with
  | program | parameter => cases written
  | literal | this | locals | noItems | noProperties => exact Nat.zero_le _
  | @item _ _ _ _ next first statements codes _ _ head tail =>
    obtain ⟨one, others⟩ := Bool.and_eq_true_iff.mp written
    exact (calls_of_items first statements codes next).trans_le (Nat.add_le_add (head one) (tail others))
  | @property _ _ _ _ _ next first _ statements _ codes _ _ _ head tail =>
    obtain ⟨both, others⟩ := Bool.and_eq_true_iff.mp written
    have one := head (Bool.and_eq_true_iff.mp both).2
    have rest : (Fragment.items statements codes next).calls ≤ _ := tail others
    refine (calls_of_items first statements codes next).trans_le ?_
    simp only [calls, callsAll] at rest ⊢
    omega
  | @identifier name _ create free =>
    have hoists : (Fragment.mk (resolution name create free) (.slot free) (some ⟨.owner name, .name name⟩)
        (free + 1)).hoisted = creation create (.name name) := Statement.scriptAll_resolution name create free
    rw [Fragment.calls, hoists, times_creation_of_call]
    exact Nat.zero_le _
  | computed subject _ left right =>
    obtain ⟨one, other⟩ := Bool.and_eq_true_iff.mp written
    have inner := left one
    have key := right other
    rw [Fragment.calls, hoisted_computed subject.ownsDeeds]
    simp only [Fragment.calls] at inner key
    simp only [times_append, times_creation_of_call, Fragment.deferred, Code.script, times_nil, calls] at inner key ⊢
    omega
  | named subject _ left =>
    have inner := left (Bool.and_eq_true_iff.mp written).1
    rw [Fragment.calls, hoisted_named subject.ownsDeeds]
    simp only [Fragment.calls] at inner
    simp only [times_append, times_creation_of_call, Fragment.deferred, Code.script, times_nil, calls] at inner ⊢
    omega
  | @call _ arguments _ _ next _ statements codes callee _ called handed =>
    obtain ⟨one, others⟩ := Bool.and_eq_true_iff.mp written
    have target := called one
    have given : (Fragment.items statements codes next).calls ≤ (array arguments).calls := handed others
    rw [calls_of_call callee.ownsDeeds]
    simp only [calls] at given ⊢
    omega
  | assignment left placed _ assigned value =>
    obtain ⟨one, other⟩ := Bool.and_eq_true_iff.mp written
    have target := assigned one
    have source := value other
    rw [calls_of_assignment left.ownsDeeds placed]
    rw [Fragment.calls] at target
    rw [calls]
    omega

end Node

namespace Evaluator

open Node

variable {h : Heap} {body : Node} {text : Text} {evaluator : Evaluator} {use : Use}

private theorem calls_body (written : body.isWritten) {whole : Fragment}
    (compiled : (use.body body).compile h false 0 = .ok whole) : whole.calls ≤ body.calls := by
  cases use with
  | run => exact (becomes_of_compile body compiled).calls_le written
  | assign value =>
    obtain ⟨target, place, source, leftCompiled, placed, rightCompiled, rfl⟩ := parts_assignment compiled
    cases rightCompiled
    rw [Fragment.calls_of_assignment ((becomes_of_compile body leftCompiled).ownsDeeds) placed]
    have assigned : target.calls ≤ body.calls := (becomes_of_compile body leftCompiled).calls_le written
    rw [Fragment.calls] at assigned
    have nothing : (Fragment.inline .parameter target.next).calls = 0 := rfl
    omega

/-- In each run, for each host and whether the run fails or not, the callee of each call that occurs in the expression
is called once at most, and each assignment that occurs in it writes its target once at most. So there are no more
calls in a run than there are in the expression. -/
theorem outcome_does_once (made : ofTree h (.program body) text = .ok evaluator) (written : body.isWritten) (use : Use)
    (host : Host σ) (locals scope : Value) (heap : Heap) (world : σ) :
    let journal := (evaluator.outcome host use locals scope heap world).2.journal
    (∀ callee arguments create free fragment slot handed,
      (use.body body).Occurs h (.call callee arguments) create free →
      (Node.call callee arguments).compile h create free = .ok fragment → fragment.code = .call slot handed →
        (journal.countP fun event => event.deed? = some (.call slot)) ≤ 1) ∧
    (∀ left right create free fragment site container selector value,
      (use.body body).Occurs h (.assignment left right) create free →
      (Node.assignment left right).compile h create free = .ok fragment →
      fragment.code = .store site container selector value →
        (journal.countP fun event => event.deed? = some (.store site)) ≤ 1) ∧
    (journal.countP fun event => event.deed?.any Deed.isCall) ≤ body.calls := by
  intro journal
  cases ready : evaluator.routine? use with
  | none =>
    have empty : journal = [] := journal_of_none ready host locals scope heap world
    rw [empty]
    exact ⟨fun _ _ _ _ _ _ _ _ _ _ => Nat.zero_le _, fun _ _ _ _ _ _ _ _ _ _ _ _ => Nat.zero_le _, Nat.zero_le _⟩
  | some routine =>
    obtain ⟨whole, compiled, script, follows⟩ := outcome_follows (σ := σ) made written ready
    have done (kind : Deed → Bool) : (journal.countP fun event => event.deed?.any kind) ≤
        Duty.times kind (whole.hoisted ++ whole.deferred) := by
      rw [← script]
      exact (follows host locals scope heap world).countP_le rfl kind
    have single {deed : Deed} {owner free : Nat} {node : Node} {create : Bool} {fragment : Fragment}
        (occurs : (use.body body).Occurs h node create free) (nodeCompiled : node.compile h create free = .ok fragment)
        (owns : deed.owner? = some owner) (low : free ≤ owner) (high : owner < fragment.next)
        (once : Duty.times (· = deed) fragment.hoisted + Duty.times (· = deed) fragment.deferred = 1) :
        (journal.countP fun event => event.deed? = some deed) ≤ 1 := by
      obtain ⟨_, gates, same, lies⟩ := occurs.lies compiled
      cases nodeCompiled.symm.trans same
      calc (journal.countP fun event => event.deed? = some deed)
        _ = journal.countP fun event => event.deed?.any (· = deed) := by simp only [Event.any_is]
        _ ≤ Duty.times (· = deed) (whole.hoisted ++ whole.deferred) := done _
        _ = 1 := (lies.times_eq owns low high).trans once
        _ ≤ 1 := Nat.le_refl 1
    refine ⟨fun callee arguments create free fragment slot handed occurs nodeCompiled code => ?_,
      fun left right create free fragment site container selector value occurs nodeCompiled code => ?_, ?_⟩
    · obtain ⟨low, high, once⟩ := times_call nodeCompiled code
      exact single occurs nodeCompiled rfl low high once
    · obtain ⟨low, high, once⟩ := times_assignment nodeCompiled code
      exact single occurs nodeCompiled rfl low high once
    · calc (journal.countP fun event => event.deed?.any Deed.isCall)
        _ ≤ Duty.times Deed.isCall (whole.hoisted ++ whole.deferred) := done Deed.isCall
        _ = whole.calls := Duty.times_append
        _ ≤ body.calls := calls_body written compiled

/-- A callee is called once, although a member is read from what it gives, and the member is stored once. -/
theorem does_once_in_assignment_of_member :
    let called : Node := .call (.identifier (Text.of "f")) []
    let body : Node := .assignment (.identifier (Text.of "a")) (.member called (.identifier (Text.of "x")) false)
    ∃ evaluator, ofTree Heap.empty (.program body) (Text.of "a = f().x") = .ok evaluator ∧ body.isWritten ∧
      (Use.run.body body).Occurs Heap.empty body false 0 ∧ (Use.run.body body).Occurs Heap.empty called false 2 ∧
      ∀ (host : Host World) (locals scope : Value) (heap : Heap) (world : World),
        let journal := (evaluator.outcome host .run locals scope heap world).2.journal
        (journal.countP fun event => event.deed? = some (.call 3)) ≤ 1 ∧
          (journal.countP fun event => event.deed? = some (.store 0)) ≤ 1 ∧
          (journal.countP fun event => event.deed?.any Deed.isCall) ≤ 1 := by
  intro called body
  obtain ⟨evaluator, made⟩ : ∃ evaluator, ofTree Heap.empty (.program body) (Text.of "a = f().x") =
      .ok evaluator := exists_ofTree (by decide +kernel)
  have whole : (Use.run.body body).Occurs Heap.empty body false 0 := .root
  have inner : (Use.run.body body).Occurs Heap.empty called false 2 := .subject (.source whole rfl)
  refine ⟨evaluator, made, rfl, whole, inner, fun host locals scope heap world => ?_⟩
  obtain ⟨calls, stores, total⟩ := outcome_does_once made rfl .run host locals scope heap world
  exact ⟨calls _ _ _ _ _ _ _ inner rfl rfl, stores _ _ _ _ _ _ _ _ _ whole rfl rfl, total⟩

end Evaluator

end GuardedExpr

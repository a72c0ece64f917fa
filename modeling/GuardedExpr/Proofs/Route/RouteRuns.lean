import GuardedExpr.Proofs.Code.CompileVerdict
import GuardedExpr.Proofs.Route.StatementEffects

/-!
Routes: expressions that lead from a name through members with fixed keys. Running one, and assigning to the
end of one, does to the heap what going along the route there does.
-/

namespace GuardedExpr

variable {σ α : Type} {host : Host σ} {frame : Frame}

inductive Segment where
  | field (name : Text)
  /-- A text in brackets. -/
  | text (t : Text)
  /-- A whole number in brackets. -/
  | index (n : Nat)
  deriving DecidableEq

def Segment.key : Segment → Value
  | .field name => .text name
  | .text t => .text t
  | .index n => .int n

theorem Segment.isScalar_key (segment : Segment) : segment.key.isScalar := by
  cases segment <;> rfl

def Segment.onto : Segment → Node → Node
  | .field name, node => .member node (.identifier name) false
  | .text t, node => .member node (.literal (.text t)) true
  | .index n, node => .member node (.literal (.int n)) true

def Node.route (name : Text) (segments : List Segment) : Node :=
  segments.foldl (fun node segment => segment.onto node) (.identifier name)

theorem Node.route_append (name : Text) (segments : List Segment) (last : Segment) :
    Node.route name (segments ++ [last]) = last.onto (Node.route name segments) := by
  simp [Node.route]

namespace Reading

def route (create : Bool) (locals scope : Value) (start : Text) (keys : List Value) : Reading Value :=
  keys.foldl (fun subject key => Prod.snd <$> (subject >>= member create key)) (name create locals scope start)

def assignName (locals scope : Value) (start : Text) (value : Value) : Reading Value := do
  let _ ← name true locals scope start
  store (← owner locals scope start) (.text start) value

def assignMember (locals scope : Value) (start : Text) (keys : List Value) (key value : Value) :
    Reading Value := do
  let found ← route true locals scope start keys >>= member true key
  store found.1 key value

theorem route_append (create : Bool) (locals scope : Value) (start : Text) (keys : List Value) (key : Value) :
    route create locals scope start (keys ++ [key]) =
      Prod.snd <$> (route create locals scope start keys >>= member create key) := by
  simp [route]

end Reading

open Run

structure Fragment.Arrives (fragment : Fragment) (frame : Frame) (free : Nat) (after : Frame) (value : Value) :
    Prop where
  agrees : frame.Agrees free after
  parameter : after.parameter = frame.parameter
  unused : after.IsFree fragment.next
  held : after.slots[free]? = some value

structure Place.Names (host : Host σ) (place : Place) (frame : Frame) (container : Reading Value) (key : Value) :
    Prop where
  container : (place.container.run host frame).Does container Eq
  key : (place.selector.key frame : Run σ Value).Does (pure key) Eq

structure Fragment.Belongs (host : Host σ) (fragment : Fragment) (frame : Frame) (free : Nat) (key : Value)
    (after : Frame) (found : Value × Value) : Prop where
  arrives : fragment.Arrives frame free after found.2
  names : ∀ place, fragment.place = some place → place.Names host after (pure found.1) key

structure Fragment.Reaches (host : Host σ) (fragment : Fragment) (frame : Frame) (free : Nat) (reading : Reading α)
    (related : Frame → α → Prop) : Prop where
  code : fragment.code = .slot free
  next : free < fragment.next
  does : fragment.next ≤ frame.slots.length →
    (Statement.runAll host frame fragment.statements).Does reading related

section Routes

variable {h : Heap} {create : Bool} {free : Nat} {inner fragment : Fragment} {subject : Reading Value}

theorem Node.reaches_identifier {name : Text} (compiled : (Node.identifier name).compile h create free = .ok fragment)
    (unused : frame.IsFree free) :
    fragment.Reaches host frame free (Reading.name create frame.locals frame.scope name)
      (fragment.Arrives frame free) := by
  obtain ⟨-, rfl⟩ := Node.parts_identifier compiled
  refine ⟨rfl, Nat.lt_succ_self free, fun (room : free < frame.slots.length) => ?_⟩
  refine (does_resolution create room (unused free (Nat.le_refl free) room)).mono ?_
  rintro _ value rfl
  exact {
    agrees := Frame.agrees_fill frame free value
    parameter := rfl
    unused := (unused.mono (Nat.le_succ free)).fill (Nat.lt_succ_self free) value
    held := by simp [Frame.fill, room] }

theorem Frame.getElem?_fill_other {slot other : Nat} (apart : other ≠ slot) (value : Value) :
    (frame.fill slot value).slots[other]? = frame.slots[other]? := by
  simp [Frame.fill, apart.symm]

theorem Fragment.does_last {selector : Selector} {key container : Value} {before : Frame} {next : Nat}
    (agrees : frame.Agrees (free + 1) before) (parameter : before.parameter = frame.parameter)
    (unused : frame.IsFree free) (beyond : before.IsFree next) (above : free < next)
    (held : before.slots[free + 1]? = some container) (room : free < frame.slots.length)
    (keyed : ∀ after : Frame, (∀ slot, slot ≠ free → after.slots[slot]? = before.slots[slot]?) →
      (selector.key after : Run σ Value).Does (pure key) Eq)
    (statements : List Statement) :
    (Statement.runAll host before (access (.slot (free + 1)) selector create free)).Does
      (Prod.mk container <$> Reading.access create container key)
      (Fragment.Belongs host ⟨statements, .slot free, some ⟨.slot (free + 1), selector⟩, next⟩ frame free key) := by
  have inside : free < before.slots.length := agrees.room ▸ room
  have null : before.slots[free]? = some .null :=
    (agrees.slots free (Nat.lt_succ_self free)).trans (unused free (Nat.le_refl free) room)
  have found : ((Code.slot (free + 1)).run host before).Does (pure container) Eq := Frame.does_slot held
  refine (does_access create found (keyed before fun _ _ => rfl) inside null).map ?_
  rintro _ value rfl
  have others (slot : Nat) (apart : slot ≠ free) : (before.fill free value).slots[slot]? = before.slots[slot]? :=
    Frame.getElem?_fill_other apart value
  refine ⟨?_, fun _ same => Option.some.inj same ▸
    ⟨Frame.does_slot ((others (free + 1) (Nat.succ_ne_self free)).trans held), keyed _ others⟩⟩
  exact {
    agrees := (agrees.mono (Nat.le_succ free)).trans (Frame.agrees_fill before free value)
    parameter := parameter
    unused := beyond.fill above value
    held := by simp [Frame.fill, inside] }

private theorem Statement.does_cleared {slot : Nat} {key : Value} {shown : Text}
    (room : slot < frame.slots.length) :
    (Statement.runAll host frame [.perform (.assign slot (.literal key shown)), .checkName slot]).Does
      (Reading.ask fun _ => Guard.memberName key) fun after _ => after = frame.fill slot key := by
  have filled : (frame.fill slot key).slots[slot]? = some key := by simp [Frame.fill, room]
  have kept : ((Statement.perform (.assign slot (.literal key shown))).run host frame).Does
      (pure (frame.fill slot key)) Eq :=
    does_bind_pure (does_pure rfl) ((Frame.does_setSlot room key).map fun _ _ same => same)
  refine does_bind_pure kept (Statement.does_alone (does_bind_pure (Frame.does_slot filled) ?_))
  rw [← bind_pure (Reading.ask fun _ => Guard.memberName key)]
  exact does_bind (does_answer _) fun _ _ _ => does_record _ (does_pure rfl)

theorem Reading.member_of_safe {key container : Value} (safe : Guard.memberName key = .ok ()) :
    Reading.member create key container = Prod.mk container <$> Reading.access create container key := by
  rw [Reading.member, safe, map_eq_pure_bind]
  rfl

theorem Node.reaches_named {node : Node} {name : Text}
    (compiled : (Node.member node (.identifier name) false).compile h create free = .ok fragment)
    (unused : frame.IsFree free)
    (before : ∀ inner, node.compile h create (free + 1) = .ok inner →
      inner.Reaches host frame (free + 1) subject (inner.Arrives frame (free + 1))) :
    fragment.Reaches host frame free (subject >>= Reading.member create (.text name))
      (fragment.Belongs host frame free (.text name)) := by
  obtain ⟨inner, _, first, ⟨⟩, checked, rfl⟩ := Node.parts_named compiled
  obtain ⟨code, next, does⟩ := before inner first
  have settled : inner.settled = inner := by simp [Fragment.settled, code, Code.isVolatile]
  rw [settled, code]
  refine ⟨rfl, by simp only; omega, fun (room : inner.next ≤ frame.slots.length) => ?_⟩
  simp only [Statement.runAll_append]
  refine does_bind (does room) fun reached container arrives => ?_
  rw [Reading.member_of_safe checked]
  exact Fragment.does_last arrives.agrees arrives.parameter unused arrives.unused (by omega) arrives.held
    (by omega) (fun _ _ => does_pure rfl) _

theorem Node.reaches_bracketed {node : Node} {key : Value}
    (compiled : (Node.member node (.literal key) true).compile h create free = .ok fragment)
    (unused : frame.IsFree free)
    (before : ∀ inner, node.compile h create (free + 1) = .ok inner →
      inner.Reaches host frame (free + 1) subject (inner.Arrives frame (free + 1))) :
    fragment.Reaches host frame free (subject >>= Reading.member create key)
      (fragment.Belongs host frame free key) := by
  obtain ⟨inner, _, first, ⟨⟩, rfl⟩ := Node.parts_computed compiled
  obtain ⟨code, next, does⟩ := before inner first
  have settled : inner.settled = inner := by simp [Fragment.settled, code, Code.isVolatile]
  simp only [settled, code, Fragment.inline, Fragment.spilled, List.nil_append]
  refine ⟨rfl, by simp only; omega, fun (room : inner.next + 1 ≤ frame.slots.length) => ?_⟩
  rw [List.append_assoc, List.append_assoc, Statement.runAll_append]
  refine does_bind (does (by omega)) fun reached container arrives => ?_
  have inside : inner.next < reached.slots.length := by
    rw [arrives.agrees.room]
    exact room
  have split : Statement.runAll host reached _ = _ := Statement.runAll_append
    [.perform (.assign inner.next (.literal key (h.escape key))), .checkName inner.next]
    (access (.slot (free + 1)) (.slot inner.next) create free)
  rw [List.cons_append, List.cons_append, List.nil_append] at split
  rw [List.cons_append, List.cons_append, List.nil_append, List.nil_append, split]
  refine does_bind (Statement.does_cleared inside) ?_
  rintro _ _ rfl
  rw [← map_eq_pure_bind]
  have agrees : frame.Agrees (free + 1) (reached.fill inner.next key) :=
    arrives.agrees.trans ((Frame.agrees_fill reached inner.next key).mono next.le)
  refine Fragment.does_last agrees arrives.parameter unused
    ((arrives.unused.mono (Nat.le_succ _)).fill (Nat.lt_succ_self _) key) (by omega)
    ((Frame.getElem?_fill_other (by omega) key).trans arrives.held) (by omega) (fun after same => ?_) _
  refine Frame.does_slot ((same inner.next (by omega)).trans ?_)
  simp [Frame.fill, inside]

/-- A segment leads from what is in the slot behind to a member of it. -/
theorem Segment.reaches_onto {segment : Segment} {node : Node}
    (compiled : (segment.onto node).compile h create free = .ok fragment) (unused : frame.IsFree free)
    (before : ∀ inner, node.compile h create (free + 1) = .ok inner →
      inner.Reaches host frame (free + 1) subject (inner.Arrives frame (free + 1))) :
    fragment.Reaches host frame free (subject >>= Reading.member create segment.key)
      (fragment.Belongs host frame free segment.key) := by
  cases segment with
  | field name => exact Node.reaches_named compiled unused before
  | text t => exact Node.reaches_bracketed compiled unused before
  | index n => exact Node.reaches_bracketed compiled unused before

theorem Node.reaches_route {name : Text} {segments : List Segment} {free : Nat} {fragment : Fragment}
    (compiled : (Node.route name segments).compile h create free = .ok fragment) (unused : frame.IsFree free) :
    fragment.Reaches host frame free
      (Reading.route create frame.locals frame.scope name (segments.map Segment.key))
      (fragment.Arrives frame free) := by
  induction segments using List.reverseRecOn generalizing free fragment with
  | nil => exact Node.reaches_identifier compiled unused
  | append_singleton segments last ih =>
    rw [Node.route_append] at compiled
    rw [List.map_append, List.map_singleton, Reading.route_append]
    obtain ⟨code, next, does⟩ := Segment.reaches_onto compiled unused fun inner first =>
      ih first (unused.mono (Nat.le_succ free))
    exact ⟨code, next, fun room => (does room).map fun _ _ belongs => belongs.arrives⟩

/-- A fragment that reaches what it stands for, in the run of a routine that ends with code for it. -/
theorem Routine.does_run {related : Frame → α → Prop} {reading : Reading α} {rest : α → Reading Value}
    {locals scope parameter : Value} {statements : List Statement} {code : Code} {slots : Nat}
    (does : (Statement.runAll host (Frame.start locals scope parameter slots) statements).Does reading related)
    (ends : ∀ after value, related after value → (code.run host after).Does (rest value) Eq) :
    (Routine.run host ⟨statements ++ [.result code], slots⟩ locals scope parameter).Does (reading >>= rest) Eq := by
  unfold Routine.run
  rw [Statement.runAll_append, bind_assoc]
  refine does_bind does fun after value holds => ?_
  have last : (Statement.runAll host after [.result code]).Does (rest value) fun ending found =>
      ending.result = found := by
    rw [← bind_pure (rest value)]
    exact Statement.does_alone (does_bind_same (ends after value holds) fun found => does_pure rfl)
  rw [← bind_pure (rest value)]
  exact does_bind last fun ending found same => does_pure same

theorem Place.Names.store {place : Place} {container source : Reading Value} {key : Value} {code : Code}
    (names : place.Names host frame container key) (given : (code.run host frame).Does source Eq) (site : Nat) :
    ((Code.store site place.container place.selector (.guarded code)).run host frame).Does
      (container >>= fun found => source >>= fun value => Reading.store found key value) Eq := by
  refine does_bind_same names.container fun found => does_bind_pure names.key ?_
  have stored (value : Value) : (do
      let kept ← guarded value
      write (.stored site found place.selector key kept) found key kept
      return kept : Run σ Value).Does (Reading.store found key value) Eq := by
    refine does_bind (does_guarded value) ?_
    rintro _ kept ⟨rfl, rfl⟩
    exact does_bind (does_write _ found key kept) fun _ _ _ => does_pure rfl
  have whole := does_bind_same given stored
  simpa only [Code.run, bind_assoc] using whole

end Routes

namespace Evaluator

private theorem assigner_of_ofTree {h : Heap} {body : Node} {text : Text} {evaluator : Evaluator}
    (made : ofTree h (.program body) text = .ok evaluator) (assignable : body.isAssignable) :
    ∃ routine, evaluator.assigner = some routine ∧
      (Node.program (.assignment body .parameter)).routine h = .ok routine := by
  obtain ⟨routine, assigning⟩ := Option.isSome_iff_exists.mp ((isAssignable_of_ofTree made).trans assignable)
  exact ⟨routine, assigning, (routines_of_ofTree made).2 routine assigning⟩

variable {h : Heap} {name : Text} {segments : List Segment} {text : Text} {evaluator : Evaluator}

theorem start_isFree (locals scope parameter : Value) (slots : Nat) :
    (Frame.start locals scope parameter slots).IsFree 0 :=
  fun _ _ room => List.getElem?_replicate_of_lt (by simpa [Frame.start] using room)

theorem does_run_route (made : ofTree h (.program (.route name segments)) text = .ok evaluator) (host : Host σ)
    (locals scope : Value) :
    (evaluator.run host locals scope).Does
      (Reading.route false locals scope name (segments.map Segment.key)) Eq := by
  obtain ⟨inner, compiled, same⟩ := Node.parts_routine (routines_of_ofTree made).1
  obtain ⟨code, -, does⟩ := Node.reaches_route compiled (start_isFree locals scope .null inner.next)
  rw [run, same, ← bind_pure (Reading.route false locals scope name (segments.map Segment.key))]
  refine Routine.does_run (does (by simp [Frame.start])) fun after value arrives => ?_
  rw [code]
  exact Frame.does_slot arrives.held

theorem does_assign {body : Node} (made : ofTree h (.program body) text = .ok evaluator)
    (assignable : body.isAssignable) {locals scope value key : Value} {reading : Reading α}
    {container : α → Reading Value}
    (reaches : ∀ target place, body.compile h true 0 = .ok target → target.place = some place →
      (Statement.runAll host (Frame.start locals scope value target.next) target.statements).Does reading
        fun after found => after.parameter = value ∧ place.Names host after (container found) key) :
    (evaluator.assign host scope value locals).Does
      (reading >>= fun found => container found >>= fun subject => Reading.store subject key value) Eq := by
  obtain ⟨routine, assigner, assigns⟩ := assigner_of_ofTree made assignable
  obtain ⟨inner, compiled, rfl⟩ := Node.parts_routine assigns
  obtain ⟨target, place, source, first, placed, ⟨⟩, rfl⟩ := Node.parts_assignment compiled
  have reached := reaches target place first placed
  rw [assign, assigner]
  simp only [Fragment.inline, List.append_nil]
  refine Routine.does_run reached fun after found names => ?_
  have handed : (Code.parameter.run host after).Does (pure value) Eq := does_pure names.1
  simpa only [pure_bind] using names.2.store handed target.code.site

theorem does_assign_name (made : ofTree h (.program (.identifier name)) text = .ok evaluator) (host : Host σ)
    (locals scope value : Value) :
    (evaluator.assign host scope value locals).Does (Reading.assignName locals scope name value) Eq := by
  refine does_assign made rfl fun target place compiled placed => ?_
  obtain ⟨code, -, does⟩ :=
    Node.reaches_identifier compiled (start_isFree locals scope value target.next)
  obtain ⟨-, rfl⟩ := Node.parts_identifier compiled
  cases placed
  refine (does (by simp [Frame.start])).mono fun after found arrives => ⟨arrives.parameter, ?_, does_pure rfl⟩
  refine does_bind_same (arrives.agrees.locals ▸ does_has _ name) fun owns => ?_
  cases owns with
  | true => exact does_pure arrives.agrees.locals
  | false => exact does_pure arrives.agrees.scope

theorem does_assign_route {last : Segment}
    (made : ofTree h (.program (.route name (segments ++ [last]))) text = .ok evaluator) (host : Host σ)
    (locals scope value : Value) :
    (evaluator.assign host scope value locals).Does
      (Reading.assignMember locals scope name (segments.map Segment.key) last.key value) Eq := by
  rw [Node.route_append] at made
  have assignable : (last.onto (Node.route name segments)).isAssignable := by cases last <;> rfl
  have reaches (target : Fragment) (place : Place)
      (compiled : (last.onto (Node.route name segments)).compile h true 0 = .ok target)
      (placed : target.place = some place) :
      (Statement.runAll host (Frame.start locals scope value target.next) target.statements).Does
        (Reading.route true locals scope name (segments.map Segment.key) >>= Reading.member true last.key)
        fun after found => after.parameter = value ∧ place.Names host after (pure found.1) last.key := by
    have unused := start_isFree locals scope value target.next
    have reached : target.Reaches host (Frame.start locals scope value target.next) 0
        (Reading.route true locals scope name (segments.map Segment.key) >>= Reading.member true last.key) _ :=
      Segment.reaches_onto compiled unused fun inner first =>
        Node.reaches_route first (unused.mono (Nat.zero_le 1))
    exact (reached.does (by simp [Frame.start])).mono fun after found belongs =>
      ⟨belongs.arrives.parameter, belongs.names place placed⟩
  have assigns := does_assign made assignable reaches
  simp only [pure_bind] at assigns
  exact assigns

end Evaluator

end GuardedExpr

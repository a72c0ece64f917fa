import GuardedExpr.Proofs.Heap.HeapContainment
import GuardedExpr.Proofs.Route.RouteRuns

/-!
What was assigned to the end of a route is found there afterwards. The assignment and the later run go through
the same containers: none that the assignment writes to comes before another one on the way, so what it has found
or made stays where it was.
-/

namespace GuardedExpr

open Relation (ReflTransGen TransGen)

namespace Heap

variable {h g after first : Heap} {r s : Ref} {v value key d : Value} {keys rest : List Value} {name : Text}
  {locals scope start : Value}

private theorem setMember_of_falsy (falsy : d.truth = false) :
    h.setMember d key value = .error (h.unsettable d key) := by
  cases d with
  | derived cls scalar => cases scalar <;> rfl
  | _ => first | rfl | cases falsy

def owner (h : Heap) (locals scope : Value) (name : Text) : Value :=
  if h.hasMember locals name = .ok true then locals else scope

/-- The containers that a walk along keys looks into: the first one, and from each one the member under the next
key as long as it is true. Beyond that there is nothing yet. -/
inductive Visits (h : Heap) : Value → List Value → Value → Prop where
  | here {c key : Value} {keys : List Value} : Visits h c (key :: keys) c
  | deeper {c d e key : Value} {keys : List Value} (member : h.getMember c key = .ok d) (present : d.truth)
      (visits : Visits h d keys e) : Visits h c (key :: keys) e

theorem visits_cons_iff {c e : Value} :
    h.Visits c (key :: keys) e ↔ e = c ∨ ∃ d, h.getMember c key = .ok d ∧ d.truth ∧ h.Visits d keys e := by
  constructor
  · rintro (_ | ⟨member, present, visits⟩)
    · exact .inl rfl
    · exact .inr ⟨_, member, present, visits⟩
  · rintro (rfl | ⟨d, member, present, visits⟩)
    · exact .here
    · exact .deeper member present visits

/-- A list or mapping to which a value does not lead. -/
def IsFit (h : Heap) (value c : Value) : Prop :=
  ∃ r, c = .ref r ∧ (h.cell r).isWritable ∧ ¬ h.Reaches value r

def Admits (h : Heap) (d : Value) : Prop :=
  Guard.object h d = .ok () ∨ ∃ r, d = .ref r ∧ h.size ≤ r

inductive Walks (h first : Heap) (start : Value) (name : Text) : List Value → Value → Prop where
  | name {s : Ref} {d : Value} (same : start = .ref s) (writable : (h.cell s).isWritable)
      (member : h.getMember (.ref s) (.text name) = .ok d) : Walks h first start name [] d
  | member {keys : List Value} {key d : Value} {r : Ref} (walks : Walks h first start name keys (.ref r))
      (admitted : first.Admits (.ref r)) (writable : (h.cell r).isWritable) (scalar : key.isScalar)
      (safe : Guard.memberName key = .ok ()) (member : h.getMember (.ref r) key = .ok d) :
      Walks h first start name (keys ++ [key]) d

/-- A container on a route was admitted by the heap before, or is new, and is refused by the heap that came of it. -/
structure Bars (first h : Heap) (start : Value) (name : Text) (keys : List Value) (reason : ObjectRefusal) (r : Ref) :
    Prop where
  stands : ∃ front key behind, keys = front ++ key :: behind ∧ h.Walks first start name front (.ref r)
  admitted : first.Admits (.ref r)
  refused : Guard.object h (.ref r) = .error (.disallowedObject reason)

namespace Walks

/-- A container at the end of a route is inside the one where it starts. -/
theorem path (walks : h.Walks first start name keys (.ref r)) : ∃ s, start = .ref s ∧ TransGen h.Holds s r := by
  generalize ends : Value.ref r = d at walks
  induction walks generalizing r with
  | name same writable member => exact ⟨_, same, .single (holds_of_getMember writable (ends ▸ member))⟩
  | member _ admitted writable _ _ member ih =>
    obtain ⟨s, same, path⟩ := ih rfl
    exact ⟨s, same, path.tail (holds_of_getMember writable (ends ▸ member))⟩

theorem alloc (walks : h.Walks first start name keys d) (cell : Cell) : (h.alloc cell).2.Walks first start name keys d := by
  have same {r : Ref} (writable : (h.cell r).isWritable) : (h.alloc cell).2.cell r = h.cell r :=
    h.cell_alloc_old cell (inside_of_isWritable writable)
  induction walks with
  | name start writable member =>
    refine .name start (by rwa [same writable]) ?_
    rwa [getMember_of_cell rfl writable (same writable)]
  | member _ admitted writable scalar safe member ih =>
    refine .member ih admitted (by rwa [same writable]) scalar safe ?_
    rwa [getMember_of_cell scalar writable (same writable)]

/-- Writing to a container behind the end of a route leaves the route as it is. -/
theorem puts (walks : h.Walks first start name keys d) (acyclic : h.HasNoCycle) (puts : h.Puts s value after)
    (behind : h.Reaches d s) : after.Walks first start name keys d := by
  have apart {r : Ref} {key d : Value} (writable : (h.cell r).isWritable)
      (member : h.getMember (.ref r) key = .ok d) (behind : h.Reaches d s) :
      h.Reaches (.ref r) s ∧ after.cell r = h.cell r := by
    obtain ⟨t, rfl, path⟩ := behind
    have holds := holds_of_getMember writable member
    refine ⟨⟨r, rfl, .head holds path⟩, puts.others r ?_⟩
    rintro rfl
    exact acyclic r (.head' holds path)
  induction walks with
  | name start writable member =>
    obtain ⟨-, same⟩ := apart writable member behind
    refine .name start (by rwa [same]) ?_
    rwa [getMember_of_cell rfl writable same]
  | member _ admitted writable scalar safe member ih =>
    obtain ⟨before, same⟩ := apart writable member behind
    refine .member (ih before) admitted (by rwa [same]) scalar safe ?_
    rwa [getMember_of_cell scalar writable same]

end Walks

structure Suits (h : Heap) (locals scope value : Value) : Prop where
  closed : h.IsClosed
  acyclic : h.HasNoCycle
  localsBelow : locals.isBelow h.size
  valueBelow : value.isBelow h.size
  apart : ∀ r, locals = .ref r → ¬ h.Reaches scope r

def isOwned (h : Heap) (locals : Value) (name : Text) : Bool :=
  locals.truth && h.owns locals name

theorem HasNoCycle.hasMember (acyclic : h.HasNoCycle) (locals : Value) (name : Text) :
    h.hasMember locals name = .ok (h.isOwned locals name) :=
  hasMember_of_not_isEndless (acyclic.not_isEndless locals) name

theorem owner_eq (acyclic : h.HasNoCycle) (locals scope : Value) (name : Text) :
    h.owner locals scope name = if h.isOwned locals name then locals else scope := by
  simp only [owner, acyclic.hasMember, Except.ok.injEq]

structure Later (h : Heap) (locals value : Value) (name : Text) (g : Heap) : Prop where
  closed : g.IsClosed
  acyclic : g.HasNoCycle
  grown : h.size ≤ g.size
  apart : ∀ r, g.Reaches value r → h.Reaches value r
  owned : g.owns locals name = h.owns locals name

/-- A container on the route that may be written to: the value does not lead to it, and if it is the locals, they
have the name already. -/
structure Ready (h : Heap) (locals value : Value) (name : Text) (g : Heap) (r : Ref) : Prop where
  later : h.Later locals value name g
  writable : (g.cell r).isWritable
  free : ¬ g.Reaches value r
  owned : h.isOwned locals name ∨ locals ≠ .ref r

theorem Suits.later (suits : h.Suits locals scope value) : h.Later locals value name h :=
  ⟨suits.closed, suits.acyclic, Nat.le_refl _, fun _ => id, rfl⟩

/-- A container still has what it had when something was written to one that may be written to. -/
theorem Ready.owns (ready : h.Ready locals value name g r) {made : Value}
    (written : g.setMember (.ref r) key made = .ok after) : after.owns locals name = h.owns locals name := by
  rw [← ready.later.owned]
  by_cases same : locals = .ref r
  · have present : g.owns locals name :=
      ready.later.owned.trans (Bool.and_eq_true_iff.mp (ready.owned.resolve_right fun other => other same)).2
    rw [present]
    subst same
    exact owns_of_setMember ready.writable written present
  · exact (puts_of_setMember ready.writable written).owns same name

private theorem owns_alloc (closed : h.IsClosed) (below : v.isBelow h.size) (name : Text)
    (cell : Cell) :
    (h.alloc cell).2.owns v name = h.owns v name := by
  have grows := h.grows_alloc cell
  simp only [owns, grows.entries? below, grows.attribute? closed below]

theorem Ready.alloc (ready : h.Ready locals value name g r) (localsBelow : locals.isBelow h.size) :
    h.Ready locals value name (g.alloc (.mapping .plain [])).2 r where
  later := {
    closed := ready.later.closed.alloc rfl
    acyclic := ready.later.acyclic.alloc
    grown := by
      rw [size_alloc]
      exact ready.later.grown.trans (Nat.le_succ _)
    apart := fun s reaches => ready.later.apart s (reaches_alloc_iff.mp reaches)
    owned := (owns_alloc ready.later.closed (Value.isBelow_mono ready.later.grown localsBelow) name _).trans
      ready.later.owned }
  writable := by
    rw [g.cell_alloc_old _ (inside_of_isWritable ready.writable)]
    exact ready.writable
  free := fun reaches => ready.free (reaches_alloc_iff.mp reaches)
  owned := ready.owned

/-- Something that does not lead back is put into a container that may be written to. -/
theorem Ready.put (ready : h.Ready locals value name g r) {made : Value} (scalar : key.isScalar)
    (inside : made.isBelow g.size) (apart : ¬ g.Reaches made r)
    (written : g.setMember (.ref r) key made = .ok after) : h.Ready locals value name after r := by
  have puts := puts_of_setMember ready.writable written
  exact {
    later := {
      closed := (ready.later.closed.setMember (Value.isBelow_of_isScalar scalar _) inside written).1
      acyclic := puts.hasNoCycle ready.later.acyclic apart
      grown := puts.size ▸ ready.later.grown
      apart := fun s reaches => ready.later.apart s (puts.reaches ready.free reaches)
      owned := ready.owns written }
    writable := puts.writable
    free := fun reaches => ready.free (puts.reaches ready.free reaches)
    owned := ready.owned }

structure Brings (g : Heap) (r : Ref) (key : Value) (after : Heap) : Prop where
  size : after.size = g.size + 1
  empty : after.cell g.size = .mapping .plain []
  member : after.getMember (.ref r) key = .ok (.ref g.size)
  walks : ∀ {first : Heap} {start : Value} {name : Text} {keys : List Value}, g.Walks first start name keys (.ref r) →
    after.Walks first start name keys (.ref r)

theorem Ready.create (ready : h.Ready locals value name g r) (localsBelow : locals.isBelow h.size)
    (scalar : key.isScalar)
    (written : (g.alloc (.mapping .plain [])).2.setMember (.ref r) key (.ref g.size) = .ok after) :
    h.Ready locals value name after r ∧ g.Brings r key after := by
  have inside := inside_of_isWritable ready.writable
  have before := ready.alloc localsBelow
  have puts := puts_of_setMember before.writable written
  have new : (g.alloc (.mapping .plain [])).2.cell g.size = .mapping .plain [] := g.cell_alloc_new _
  have leadsNowhere : ¬ (g.alloc (.mapping .plain [])).2.Reaches (.ref g.size) r := by
    rintro ⟨_, ⟨⟩, path⟩
    rcases path.cases_head with same | ⟨s, holds, _⟩
    · exact inside.ne' same
    · rw [Holds, new] at holds
      cases holds
  refine ⟨before.put scalar (by simp [Value.isBelow, size_alloc]) leadsNowhere written, ?_⟩
  exact {
    size := puts.size.trans (size_alloc g _)
    empty := by rw [puts.others _ inside.ne', new]
    member := getMember_of_setMember scalar before.writable written
    walks := fun walks => (walks.alloc _).puts before.later.acyclic puts ⟨r, rfl, .refl⟩ }

/-- Where an assignment stands on its route: at a value that was there before anything was created, or at an
object that it has created. -/
inductive Stage (h : Heap) (value : Value) (rest : List Value) : Heap → Value → Prop where
  | old {d : Value} (passed : Guard.object h d = .ok ()) (visited : ∀ c, h.Visits d rest c → h.IsFit value c) :
      Stage h value rest h d
  | new {g : Heap} {r : Ref} (outside : h.size ≤ r) (inside : r < g.size) (empty : g.cell r = .mapping .plain []) :
      Stage h value rest g (.ref r)

structure Passing (h : Heap) (locals scope value : Value) (name : Text) (g : Heap) (keys : List Value) (d : Value)
    (rest : List Value) : Prop where
  later : h.Later locals value name g
  walks : g.Walks h (h.owner locals scope name) name keys d
  stage : h.Stage value rest g d

theorem Stage.admits (stage : h.Stage value rest g d) : h.Admits d := by
  cases stage with
  | old passed => exact .inl passed
  | new outside => exact .inr ⟨_, rfl, outside⟩

theorem Passing.ready (passing : h.Passing locals scope value name g keys d (key :: rest))
    (suits : h.Suits locals scope value) : ∃ r, d = .ref r ∧ h.Ready locals value name g r := by
  obtain ⟨later, walks, stage⟩ := passing
  cases stage with
  | old _ visited =>
    obtain ⟨r, rfl, writable, free⟩ := visited _ .here
    refine ⟨r, rfl, later, writable, free, ?_⟩
    cases owned : h.isOwned locals name with
    | true => exact .inl rfl
    | false =>
      right
      intro same
      rw [owner_eq suits.acyclic, owned, if_neg Bool.false_ne_true] at walks
      obtain ⟨s, start, path⟩ := walks.path
      exact suits.apart r same ⟨s, start, path.to_reflTransGen⟩
  | @new _ r outside inside empty =>
    refine ⟨r, rfl, later, by rw [empty]; rfl, fun reaches => ?_, .inr ?_⟩
    · exact absurd ((later.apart r reaches).inside suits.closed suits.valueBelow) (Nat.not_lt.mpr outside)
    · rintro rfl
      exact absurd (of_decide_eq_true suits.localsBelow) (Nat.not_lt.mpr outside)

end Heap

namespace Reading

variable {h g after : Heap} {r : Ref} {value key d : Value} {keys rest : List Value} {name : Text}
  {locals scope start : Value} {found : Value × Value}

theorem isFalse_eq_ok {container : Value} {answer : Bool} :
    (isFalse container key).run g = .ok (answer, after) ↔
      ∃ member truth, g.getMember container key = .ok member ∧ g.isTruthy member = .ok truth ∧ answer = !truth ∧
        after = g := by
  simp only [isFalse, bind_eq_ok, ask_eq_ok, pure_eq_ok]
  constructor
  · rintro ⟨member, _, ⟨present, rfl⟩, truth, _, ⟨asked, rfl⟩, rfl, rfl⟩
    exact ⟨member, truth, present, asked, rfl, rfl⟩
  · rintro ⟨member, truth, present, asked, rfl, rfl⟩
    exact ⟨member, _, ⟨present, rfl⟩, truth, _, ⟨asked, rfl⟩, rfl, rfl⟩

theorem member_cases (read : (member true key d).run g = .ok (found, after)) :
    Guard.memberName key = .ok () ∧ found.1 = d ∧
      (∃ member, g.getMember d key = .ok member ∧ (member.truth = true ∧ after = g ∨ member.truth = false ∧
        (g.alloc (.mapping .plain [])).2.setMember d key (.ref g.size) = .ok after)) ∧
      (if d.truth then after.getMember d key = .ok found.2 ∧ Guard.object after found.2 = .ok ()
        else found.2 = .null) := by
  simp only [member, access, bind_eq_ok, ask_eq_ok, pure_eq_ok] at read
  obtain ⟨⟨⟩, _, ⟨safe, rfl⟩, last, _, ⟨⟨⟩, _, supplied, truth, middle, ⟨asked, rfl⟩, ending⟩, rfl, rfl⟩ := read
  obtain rfl := Heap.truth_of_isTruthy asked
  have reached : after = middle ∧
      if d.truth then after.getMember d key = .ok last ∧ Guard.object after last = .ok () else last = .null := by
    cases whole : d.truth with
    | true =>
      rw [whole, if_pos rfl] at ending
      obtain ⟨member, _, got, passed⟩ := bind_eq_ok.mp ending
      obtain ⟨got, rfl⟩ := ask_eq_ok.mp got
      obtain ⟨passed, rfl, rfl⟩ := guarded_eq_ok.mp passed
      exact ⟨rfl, got, passed⟩
    | false =>
      rw [whole, if_neg Bool.false_ne_true] at ending
      obtain ⟨rfl, rfl⟩ := pure_eq_ok.mp ending
      exact ⟨rfl, rfl⟩
  obtain ⟨rfl, reached⟩ := reached
  refine ⟨safe, rfl, ?_, reached⟩
  obtain ⟨lacks, _, lacking, done⟩ := supply_cases supplied
  obtain ⟨member, truth, got, tested, rfl, rfl⟩ := isFalse_eq_ok.mp lacking
  obtain rfl := Heap.truth_of_isTruthy tested
  refine ⟨member, got, done.imp ?_ ?_⟩
  · rintro ⟨present, same⟩
    exact ⟨by simpa using present, same⟩
  · rintro ⟨lacks, created⟩
    exact ⟨by simpa using lacks, created⟩

open Heap in
theorem passing_member (passing : h.Passing locals scope value name g keys d (key :: rest))
    (suits : h.Suits locals scope value) (scalar : key.isScalar)
    (read : (member true key d).run g = .ok (found, after)) :
    (∃ r, found.1 = .ref r ∧ h.Admits (.ref r) ∧ h.Ready locals value name after r ∧
      after.Walks h (h.owner locals scope name) name keys (.ref r)) ∧
      h.Passing locals scope value name after (keys ++ [key]) found.2 rest := by
  obtain ⟨r, rfl, ready⟩ := passing.ready suits
  obtain ⟨safe, same, ⟨member, present, done⟩, reached⟩ := member_cases read
  have admitted := passing.stage.admits
  obtain ⟨reached, passed⟩ : after.getMember (.ref r) key = .ok found.2 ∧ Guard.object after found.2 = .ok () := reached
  rcases done with ⟨true_, rfl⟩ | ⟨false_, created⟩
  · obtain rfl : member = found.2 := Except.ok.inj (present.symm.trans reached)
    refine ⟨⟨r, same, admitted, ready, passing.walks⟩, passing.later,
      passing.walks.member admitted ready.writable scalar safe present, ?_⟩
    cases passing.stage with
    | old _ visited => exact .old passed fun c visits => visited c (.deeper present true_ visits)
    | new _ _ empty =>
      have nothing : found.2 = Value.null := by
        obtain ⟨hashed, every, -⟩ := key?_of_isScalar scalar
        simpa [getMember, entries?, empty, every, Entries.find?, Table.lookup] using present.symm
      rw [nothing] at true_
      cases true_
  · obtain ⟨after_, brings⟩ := ready.create suits.localsBelow scalar created
    have walks := brings.walks passing.walks
    obtain isNew : found.2 = .ref g.size := Except.ok.inj (reached.symm.trans brings.member)
    refine ⟨⟨r, same, admitted, after_, walks⟩, after_.later,
      walks.member admitted after_.writable scalar safe reached, ?_⟩
    rw [isNew]
    exact .new ready.later.grown (brings.size ▸ Nat.lt_succ_self _) brings.empty

theorem run_hasMember {container : Value} (ends : ¬ h.IsEndless container) (name : Text) :
    (ask fun h => h.hasMember container name).run h = .ok (h.isOwned container name, h) := by
  rw [ask_run, Heap.hasMember_of_not_isEndless ends]
  rfl

theorem run_isTruthy {v : Value} (ends : ¬ h.IsEndless v) :
    (ask fun h => h.isTruthy v).run h = .ok (v.truth, h) := by
  rw [ask_run, Heap.isTruthy_of_not_isEndless ends]
  rfl

section Ends

variable (localsEnd : ¬ h.IsEndless locals) (scopeEnd : ¬ h.IsEndless scope) (name : Text)

include localsEnd

theorem run_ofLocals :
    (ofLocals locals name).run h =
      if h.isOwned locals name then (ask fun h => h.getMember locals (.text name)).run h else .ok (.null, h) := by
  rw [ofLocals, bind_run_ok (run_hasMember localsEnd name)]
  cases h.isOwned locals name <;> rfl

include scopeEnd

private theorem run_isFree : (isFree locals scope name).run h = .ok
    (!h.isOwned locals name && scope.truth, h) := by
  rw [isFree, bind_run_ok (run_hasMember localsEnd name)]
  cases h.isOwned locals name with
  | true => rfl
  | false => exact run_isTruthy scopeEnd

theorem run_lacksName :
    (lacksName locals scope name).run h =
      .ok (!h.isOwned locals name && (scope.truth && !h.isOwned scope name), h) := by
  rw [lacksName, bind_run_ok (run_hasMember localsEnd name)]
  cases h.isOwned locals name with
  | true => rfl
  | false =>
    simp only [Bool.false_eq_true, if_false, bind_run_ok (run_isTruthy scopeEnd)]
    cases scope.truth with
    | false => rfl
    | true =>
      simp only [if_true, bind_run_ok (run_hasMember scopeEnd name)]
      rfl

theorem run_ofScope (otherwise : Value) :
    (ofScope locals scope name otherwise).run h =
      if !h.isOwned locals name && scope.truth then (ask fun h => h.getMember scope (.text name)).run h
      else .ok (otherwise, h) := by
  rw [ofScope, bind_run_ok (run_isFree localsEnd scopeEnd name)]
  cases !h.isOwned locals name && scope.truth <;> rfl

end Ends

theorem run_supply {lacking : Reading Bool} {container : Value} (create : Bool)
    (known : create → lacking.run h = .ok (false, h)) : (supply create lacking container key).run h = .ok ((), h) := by
  cases create with
  | false => rfl
  | true => exact bind_run_ok (known rfl)

private theorem run_name_of_owned (acyclic : h.HasNoCycle) (owned : h.isOwned locals name)
    (create : Bool) (scope : Value) :
    (Reading.name create locals scope name).run h =
      (ask (fun h => h.getMember locals (.text name)) >>= guarded).run h := by
  have first := run_ofLocals (acyclic.not_isEndless locals) name
  rw [owned, if_pos rfl, ask_run] at first
  cases member : h.getMember locals (.text name) with
  | error failure =>
    rw [member] at first
    have none : (ask fun h => h.getMember locals (.text name)).run h = .error failure := by rw [ask_run, member]; rfl
    rw [Reading.name, bind_run_error first, bind_run_error none]
  | ok value =>
    rw [member] at first
    have some_ : (ask fun h => h.getMember locals (.text name)).run h = .ok (value, h) := by
      rw [ask_run, member]
      rfl
    have lacks := run_lacksName (acyclic.not_isEndless locals) (acyclic.not_isEndless scope) name
    rw [owned, Bool.not_true, Bool.false_and] at lacks
    have supplied : (supply create (lacksName locals scope name) scope (.text name)).run h = .ok ((), h) :=
      run_supply create fun _ => lacks
    have last := run_ofScope (acyclic.not_isEndless locals) (acyclic.not_isEndless scope) name value
    rw [owned] at last
    rw [Reading.name, bind_run_ok first, bind_run_ok supplied, bind_run_ok last, bind_run_ok some_]

/-- A name that the locals do not have is looked up in the scope, where it is created if it is missing. -/
theorem run_name_of_free (localsEnd : ¬ h.IsEndless locals) (scopeEnd : ¬ h.IsEndless scope)
    (free : h.isOwned locals name = false) (present : scope.truth) {create : Bool}
    (known : create → h.isOwned scope name) :
    (Reading.name create locals scope name).run h =
      (ask (fun h => h.getMember scope (.text name)) >>= guarded).run h := by
  have first := run_ofLocals localsEnd name
  rw [free, if_neg Bool.false_ne_true] at first
  have supplied : (supply create (lacksName locals scope name) scope (.text name)).run h = .ok ((), h) :=
    run_supply create fun asked => by
      rw [run_lacksName localsEnd scopeEnd, free, present, known asked]
      rfl
  have last := run_ofScope localsEnd scopeEnd name .null
  rw [free, present, Bool.not_false, Bool.true_and, if_pos rfl] at last
  rw [Reading.name, bind_run_ok first, bind_run_ok supplied, StateT.run_bind, StateT.run_bind, last]

theorem run_name (acyclic : h.HasNoCycle) (owner : h.owner locals scope name = start) (present : start.truth)
    (create : Bool) (known : create → h.isOwned start name) :
    (Reading.name create locals scope name).run h =
      (ask (fun h => h.getMember start (.text name)) >>= guarded).run h := by
  rw [Heap.owner_eq acyclic] at owner
  cases owned : h.isOwned locals name with
  | true =>
    rw [owned, if_pos rfl] at owner
    subst owner
    exact run_name_of_owned acyclic owned create scope
  | false =>
    rw [owned, if_neg Bool.false_ne_true] at owner
    subst owner
    exact run_name_of_free (acyclic.not_isEndless locals) (acyclic.not_isEndless scope) owned present known

open Heap in
private theorem ready_owner (suits : h.Suits locals scope value)
    (visited : ∀ c, h.Visits (h.owner locals scope name) (.text name :: rest) c → h.IsFit value c) :
    ∃ s, h.owner locals scope name = .ref s ∧ h.Ready locals value name h s := by
  obtain ⟨s, same, writable, free⟩ := visited _ .here
  refine ⟨s, same, suits.later, writable, free, ?_⟩
  cases owned : h.isOwned locals name with
  | true => exact .inl rfl
  | false =>
    right
    rintro rfl
    rw [owner_eq suits.acyclic, owned, if_neg Bool.false_ne_true] at same
    exact suits.apart s rfl ⟨s, same, .refl⟩

open Heap in
/-- The first step of a route: a name that was there may stand for something false, and then nothing can follow. -/
theorem passing_name (suits : h.Suits locals scope value)
    (visited : ∀ c, h.Visits (h.owner locals scope name) (.text name :: rest) c → h.IsFit value c)
    (read : (Reading.name true locals scope name).run h = .ok (d, g)) :
    (∃ s, h.owner locals scope name = .ref s ∧ h.Ready locals value name g s) ∧
      (d.truth = false ∨ h.Passing locals scope value name g [] d rest) := by
  obtain ⟨s, start, ready⟩ := ready_owner suits visited
  cases known : h.isOwned (.ref s) name with
  | true =>
    rw [run_name suits.acyclic start rfl true fun _ => known] at read
    obtain ⟨member, _, found, passed⟩ := bind_eq_ok.mp read
    obtain ⟨found, rfl⟩ := ask_eq_ok.mp found
    obtain ⟨passed, rfl, rfl⟩ := guarded_eq_ok.mp passed
    refine ⟨⟨s, start, ready⟩, ?_⟩
    cases present : d.truth with
    | false => exact .inl rfl
    | true =>
      refine .inr ⟨suits.later, .name start ready.writable found, .old passed fun c visits => ?_⟩
      exact visited c (start ▸ .deeper found present visits)
  | false =>
    have free : h.isOwned locals name = false := by
      by_contra owned
      rw [owner_eq suits.acyclic, if_pos (Bool.eq_true_of_not_eq_false owned)] at start
      subst start
      exact owned known
    have isScope : scope = .ref s := by rwa [owner_eq suits.acyclic, free, if_neg Bool.false_ne_true] at start
    subst isScope
    obtain ⟨first, _, inLocals, rest⟩ := bind_eq_ok.mp read
    rw [run_ofLocals (suits.acyclic.not_isEndless locals), free, if_neg Bool.false_ne_true] at inLocals
    cases inLocals
    obtain ⟨⟨⟩, middle, supplied, rest⟩ := bind_eq_ok.mp rest
    obtain ⟨lacks, _, lacking, done⟩ := supply_cases supplied
    rw [run_lacksName (suits.acyclic.not_isEndless _) (suits.acyclic.not_isEndless _), free, known] at lacking
    cases lacking
    obtain ⟨⟨⟩, _⟩ | ⟨-, created⟩ := done
    obtain ⟨after_, brings⟩ := ready.create suits.localsBelow rfl created
    have stillFree : middle.isOwned locals name = false := by
      rw [isOwned, after_.later.owned]
      exact free
    obtain ⟨member, _, inScope, passed⟩ := bind_eq_ok.mp rest
    rw [run_ofScope (after_.later.acyclic.not_isEndless _) (after_.later.acyclic.not_isEndless _), stillFree] at inScope
    obtain ⟨found, rfl⟩ := ask_eq_ok.mp inScope
    obtain ⟨-, rfl, rfl⟩ := guarded_eq_ok.mp passed
    obtain isNew : d = .ref h.size := Except.ok.inj (found.symm.trans brings.member)
    refine ⟨⟨s, start, after_⟩, .inr ⟨after_.later, .name start after_.writable found, ?_⟩⟩
    rw [isNew]
    exact .new (Nat.le_refl _) (brings.size ▸ Nat.lt_succ_self _) brings.empty

theorem member_of_falsy (falsy : d.truth = false) (read : (member true key d).run g = .ok (found, after)) :
    found.1 = d ∧ found.2.truth = false := by
  obtain ⟨-, same, -, reached⟩ := member_cases read
  rw [falsy, if_neg Bool.false_ne_true] at reached
  exact ⟨same, reached ▸ rfl⟩

/-- An assignment that has gone along a route stands at something that can be written to or at something false. -/
theorem passing_route (suits : h.Suits locals scope value) (scalars : ∀ key ∈ keys, key.isScalar)
    (visited : ∀ c, h.Visits (h.owner locals scope name) (.text name :: (keys ++ rest)) c → h.IsFit value c)
    (read : (route true locals scope name keys).run h = .ok (d, g)) :
    d.truth = false ∨ h.Passing locals scope value name g keys d rest := by
  induction keys using List.reverseRecOn generalizing rest d g with
  | nil => exact (passing_name suits visited read).2
  | append_singleton keys key ih =>
    rw [route_append] at read
    obtain ⟨found, went, rfl⟩ := map_eq_ok.mp read
    obtain ⟨container, middle, before, last⟩ := bind_eq_ok.mp went
    have ahead : ∀ c, h.Visits (h.owner locals scope name) (.text name :: (keys ++ key :: rest)) c →
        h.IsFit value c := by
      simpa using visited
    have earlier := ih (fun other inside => scalars other (List.mem_append_left _ inside)) ahead before
    rcases earlier with falsy | passing
    · exact .inl (member_of_falsy falsy last).2
    · exact .inr (passing_member passing suits (scalars key (by simp)) last).2

theorem store_eq_ok {container stored : Value} :
    (store container key value).run g = .ok (stored, after) ↔
      Guard.object g value = .ok () ∧ stored = value ∧ g.setMember container key value = .ok after := by
  simp only [store, bind_eq_ok, guarded_eq_ok, write_eq_ok, pure_eq_ok]
  constructor
  · rintro ⟨_, _, ⟨passed, rfl, rfl⟩, ⟨⟩, _, written, rfl, rfl⟩
    exact ⟨passed, rfl, written⟩
  · rintro ⟨passed, rfl, written⟩
    exact ⟨stored, _, ⟨passed, rfl, rfl⟩, (), _, written, rfl, rfl⟩

private theorem run_access (acyclic : g.HasNoCycle) (present : d.truth) {member : Value}
    (found : g.getMember d key = .ok member) : (access false d key).run g = (guarded member).run g := by
  have supplied : (supply false (isFalse d key) d key).run g = .ok ((), g) := rfl
  have truth := run_isTruthy (acyclic.not_isEndless d)
  have got : (ask fun h => h.getMember d key).run g = .ok (member, g) := ask_eq_ok.mpr ⟨found, rfl⟩
  rw [access, bind_run_ok supplied, bind_run_ok truth, if_pos present, bind_run_ok got]

/-- A route whose containers are lists and mappings is gone along to its end, unless the guard of objects refuses what
stands there, or a container on the way. -/
theorem run_route (acyclic : g.HasNoCycle) (owner : g.owner locals scope name = start)
    (walks : g.Walks first start name keys d) :
    (route false locals scope name keys).run g = (guarded d).run g ∨
      ∃ reason r, (route false locals scope name keys).run g = .error (.disallowedObject reason) ∧
        first.Bars g start name keys reason r := by
  induction walks with
  | @name s d same writable found =>
    subst same
    have got : (ask fun h => h.getMember (.ref s) (.text name)).run g = .ok (d, g) := ask_eq_ok.mpr ⟨found, rfl⟩
    rw [route, List.foldl_nil, run_name acyclic owner rfl false fun created => absurd created Bool.false_ne_true,
      bind_run_ok got]
    exact .inl rfl
  | @member keys key d r walks admitted writable scalar safe found ih =>
    rw [route_append]
    have stopped {reason : ObjectRefusal}
        (refused : (route false locals scope name keys).run g = .error (.disallowedObject reason)) :
        (Prod.snd <$> (route false locals scope name keys >>= Reading.member false key)).run g =
          .error (.disallowedObject reason) := by
      rw [StateT.run_map, bind_run_error refused]
      rfl
    rcases ih with went | ⟨reason, s, refused, ⟨front, other, behind, rfl, before⟩, earlier, bars⟩
    · rcases acyclic.object (.ref r) with passed | ⟨reason, refused⟩
      · left
        rw [guarded_eq_ok.mpr ⟨passed, rfl, rfl⟩] at went
        rw [StateT.run_map, bind_run_ok went, member_of_safe safe, StateT.run_map, run_access acyclic rfl found]
        cases (guarded d).run g <;> rfl
      · have fails : (guarded (.ref r)).run g = .error (.disallowedObject reason) :=
          bind_run_error (by rw [ask_run, refused]; rfl)
        exact .inr ⟨reason, r, stopped (went.trans fails), ⟨keys, key, [], rfl, walks⟩, admitted, refused⟩
    · exact .inr ⟨reason, s, stopped refused, ⟨front, other, behind ++ [key], by simp, before⟩, earlier, bars⟩

private theorem run_owner (acyclic : g.HasNoCycle) :
    (owner locals scope name).run g = .ok (g.owner locals scope name, g) := by
  rw [owner, bind_run_ok (run_hasMember (acyclic.not_isEndless locals) name), Heap.owner_eq acyclic]
  cases g.isOwned locals name <;> rfl

theorem owner_of_later (suits : h.Suits locals scope value) (later : h.Later locals value name g) :
    g.owner locals scope name = h.owner locals scope name := by
  rw [Heap.owner_eq later.acyclic, Heap.owner_eq suits.acyclic, Heap.isOwned, Heap.isOwned, later.owned]

theorem ready_of_store (suits : h.Suits locals scope value) (ready : h.Ready locals value name g r)
    (scalar : key.isScalar) {stored : Value} (read : (store (.ref r) key value).run g = .ok (stored, after)) :
    stored = value ∧ h.Ready locals value name after r ∧ g.Puts r value after ∧
      after.getMember (.ref r) key = .ok value ∧ Guard.object after value = .ok () := by
  obtain ⟨passed, rfl, written⟩ := store_eq_ok.mp read
  have below : stored.isBelow g.size := Value.isBelow_mono ready.later.grown suits.valueBelow
  have put := ready.put scalar below ready.free written
  have puts := Heap.puts_of_setMember ready.writable written
  have apart : stored ≠ .ref r := fun same => ready.free (same ▸ ⟨r, rfl, .refl⟩)
  exact ⟨rfl, put, puts, Heap.getMember_of_setMember scalar ready.writable written,
    (puts.object apart ready.later.acyclic put.later.acyclic).trans passed⟩

private theorem walks_of_assignName (suits : h.Suits locals scope value)
    (visited : ∀ c, h.Visits (h.owner locals scope name) [.text name] c → h.IsFit value c) {stored : Value}
    (read : (assignName locals scope name value).run h = .ok (stored, g)) :
    stored = value ∧ g.HasNoCycle ∧ g.Walks h (g.owner locals scope name) name [] value ∧
      Guard.object g value = .ok () := by
  obtain ⟨d, middle, named, rest⟩ := bind_eq_ok.mp read
  obtain ⟨⟨s, start, ready⟩, -⟩ := passing_name suits visited named
  rw [bind_run_ok (run_owner ready.later.acyclic), owner_of_later suits ready.later, start] at rest
  obtain ⟨same, after_, -, found, passed⟩ := ready_of_store suits ready rfl rest
  refine ⟨same, after_.later.acyclic, ?_, passed⟩
  rw [owner_of_later suits after_.later]
  exact .name start after_.writable found

private theorem walks_of_assignMember (suits : h.Suits locals scope value)
    (scalars : ∀ key ∈ keys, key.isScalar)
    (scalar : key.isScalar)
    (visited : ∀ c, h.Visits (h.owner locals scope name) (.text name :: (keys ++ [key])) c → h.IsFit value c)
    {stored : Value} (read : (assignMember locals scope name keys key value).run h = .ok (stored, g)) :
    stored = value ∧ g.HasNoCycle ∧ g.Walks h (g.owner locals scope name) name (keys ++ [key]) value ∧
      Guard.object g value = .ok () := by
  obtain ⟨found, middle, went, rest⟩ := bind_eq_ok.mp read
  obtain ⟨d, earlier, before, last⟩ := bind_eq_ok.mp went
  rcases passing_route suits scalars visited before with falsy | passing
  · rw [(member_of_falsy falsy last).1] at rest
    obtain ⟨-, -, written⟩ := store_eq_ok.mp rest
    rw [Heap.setMember_of_falsy falsy] at written
    cases written
  · obtain ⟨⟨r, container, admitted, ready, walks⟩, -⟩ := passing_member passing suits scalar last
    rw [container] at rest
    obtain ⟨same, after_, puts, found, passed⟩ := ready_of_store suits ready scalar rest
    refine ⟨same, after_.later.acyclic, ?_, passed⟩
    rw [owner_of_later suits after_.later]
    exact (walks.puts ready.later.acyclic puts ⟨r, rfl, .refl⟩).member admitted after_.writable scalar
      (member_cases last).1 found

end Reading

namespace Evaluator

variable {σ : Type} {compiling heap : Heap} {name : Text} {segments : List Segment} {text : Text}
  {evaluator : Evaluator} {locals scope value : Value}

private theorem walks_of_assign
    (made : ofTree compiling (.program (.route name segments)) text = .ok evaluator)
    (host : Host σ) (suits : heap.Suits locals scope value)
    (visited : ∀ c, heap.Visits (heap.owner locals scope name) (.text name :: segments.map Segment.key) c →
      heap.IsFit value c) {world : σ} {returned : Value}
    (ended : (evaluator.outcome host (.assign value) locals scope heap world).1 = .ok returned) :
    let after := (evaluator.outcome host (.assign value) locals scope heap world).2.heap
    returned = value ∧ after.HasNoCycle ∧
      after.Walks heap (after.owner locals scope name) name (segments.map Segment.key) value ∧
      Guard.object after value = .ok () := by
  cases segments using List.reverseRecOn with
  | nil =>
    have read := (does_assign_name made host locals scope value).read_of_ok ended
    exact Reading.walks_of_assignName suits visited read
  | append_singleton segments last =>
    have scalars : ∀ key ∈ segments.map Segment.key, key.isScalar := by
      simp [Segment.isScalar_key]
    rw [List.map_append, List.map_singleton] at *
    have read := (does_assign_route made host locals scope value).read_of_ok ended
    exact Reading.walks_of_assignMember suits scalars last.isScalar_key visited read

/-- An assignment through a route of names and literal keys returns the value, and so does the expression
afterwards with the same locals and scope, unless a container on the route is refused that the guard of objects let
pass before the assignment, or that was made by it. The containers on the route are lists or mappings to which the
value does not lead, no container is inside itself, and the locals are not inside the scope. -/
theorem returns_assigned (made : ofTree compiling (.program (.route name segments)) text = .ok evaluator)
    (host : Host σ) (closed : heap.IsClosed) (acyclic : heap.HasNoCycle) (localsBelow : locals.isBelow heap.size)
    (valueBelow : value.isBelow heap.size) (apart : ∀ r, locals = .ref r → ¬ heap.Reaches scope r)
    (visited : ∀ c, heap.Visits (heap.owner locals scope name) (.text name :: segments.map Segment.key) c →
      heap.IsFit value c) (world : σ) (returned : Value)
    (ended : (evaluator.outcome host (.assign value) locals scope heap world).1 = .ok returned) :
    let left := (evaluator.outcome host (.assign value) locals scope heap world).2
    let again := evaluator.outcome host .run locals scope left.heap left.world
    returned = value ∧ (again.1 = .ok value ∨ ∃ reason r, again.1 = .error (.disallowedObject reason) ∧
      heap.Bars left.heap (left.heap.owner locals scope name) name (segments.map Segment.key) reason r) := by
  intro left again
  obtain ⟨same, after, walks, passed⟩ :=
    walks_of_assign made host ⟨closed, acyclic, localsBelow, valueBelow, apart⟩ visited ended
  refine ⟨same, ?_⟩
  have does := does_run_route made host locals scope
  rcases Reading.run_route after rfl walks with found | ⟨reason, r, refused, bars⟩
  · rw [Reading.guarded_eq_ok.mpr ⟨passed, rfl, rfl⟩] at found
    exact .inl (does.ok (m := ⟨left.heap, left.world, []⟩) found).1
  · exact .inr ⟨reason, r, does.error (m := ⟨left.heap, left.world, []⟩) refused, bars⟩

/-- An object that is put behind the end of a list: the assignment makes the item and its member. -/
theorem returns_assigned_behind_list :
    let segments : List Segment := [.index 1, .field (Text.of "b")]
    let heap : Heap := ⟨#[.mapping .plain (named [("a", .ref 1)]), .list [.int 7], .mapping .plain []]⟩
    ∃ evaluator, ofTree Heap.empty (.program (.route (Text.of "a") segments)) (Text.of "a[1].b") = .ok evaluator ∧
      heap.IsClosed ∧ heap.HasNoCycle ∧ Value.null.isBelow heap.size ∧ (Value.ref 2).isBelow heap.size ∧
      (∀ r, Value.null = .ref r → ¬ heap.Reaches (.ref 0) r) ∧
      (∀ c, heap.Visits (heap.owner .null (.ref 0) (Text.of "a"))
        (.text (Text.of "a") :: segments.map Segment.key) c → heap.IsFit (.ref 2) c) ∧
      let assigned := evaluator.outcome (Host.standard 1) (.assign (.ref 2)) .null (.ref 0) heap .start
      let again := evaluator.outcome (Host.standard 1) .run .null (.ref 0) assigned.2.heap assigned.2.world
      ∃ returned, assigned.1 = .ok returned ∧ returned = .ref 2 ∧
        (again.1 = .ok (.ref 2) ∨ ∃ reason r, again.1 = .error (.disallowedObject reason) ∧
          heap.Bars assigned.2.heap (assigned.2.heap.owner .null (.ref 0) (Text.of "a")) (Text.of "a")
            (segments.map Segment.key) reason r) := by
  intro segments heap
  have ran : (ofTree Heap.empty (.program (.route (Text.of "a") segments)) (Text.of "a[1].b")).toOption.any
      fun evaluator => (evaluator.outcome (Host.standard 1) (.assign (.ref 2)) .null (.ref 0) heap
        .start).1.toOption.any fun _ => true := by
    decide +kernel
  obtain ⟨evaluator, made, ran⟩ := exists_eq_ok ran
  obtain ⟨returned, ended, -⟩ := exists_eq_ok ran
  have closed : heap.IsClosed := by decide +kernel
  have acyclic : heap.HasNoCycle := Heap.hasNoCycle_of_later (by decide +kernel)
  have owner : heap.owner .null (.ref 0) (Text.of "a") = .ref 0 := by decide +kernel
  have list : heap.getMember (.ref 0) (.text (Text.of "a")) = .ok (.ref 1) := by decide +kernel
  have item : heap.getMember (.ref 1) (.int 1) = .ok .null := by decide +kernel
  have nowhere (r : Ref) (reaches : heap.Reaches (.ref 2) r) : 2 = r := by
    obtain ⟨_, ⟨⟩, path⟩ := reaches
    rcases path.cases_head with same | ⟨s, holds, -⟩
    · exact same
    · cases holds
  have visited : ∀ c, heap.Visits (heap.owner .null (.ref 0) (Text.of "a"))
      (.text (Text.of "a") :: segments.map Segment.key) c → heap.IsFit (.ref 2) c := by
    intro c visits
    rw [owner] at visits
    rcases Heap.visits_cons_iff.mp visits with rfl | ⟨d, found, -, visits⟩
    · exact ⟨0, rfl, rfl, fun reaches => absurd (nowhere 0 reaches) (by decide)⟩
    cases list.symm.trans found
    rcases Heap.visits_cons_iff.mp visits with rfl | ⟨d, found, present, -⟩
    · exact ⟨1, rfl, rfl, fun reaches => absurd (nowhere 1 reaches) (by decide)⟩
    cases item.symm.trans found
    cases present
  have apart : ∀ r, Value.null = .ref r → ¬ heap.Reaches (.ref 0) r := fun _ same => nomatch same
  exact ⟨evaluator, made, closed, acyclic, rfl, rfl, apart, visited, returned, ended,
    returns_assigned made (Host.standard 1) closed acyclic rfl rfl apart visited .start returned ended⟩

end Evaluator

end GuardedExpr

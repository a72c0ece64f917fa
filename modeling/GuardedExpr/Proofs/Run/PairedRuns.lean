import GuardedExpr.Proofs.Code.ScopeUses
import GuardedExpr.Proofs.Heap.AlikeAnswers
import GuardedExpr.Proofs.Heap.CommonRegions
import GuardedExpr.Proofs.Heap.HeapContainment
import GuardedExpr.Proofs.Run.RunJournal

/-!
Two runs side by side, one on each of two scopes. All else that the runs come across lies in a region that their heaps
have in common and in which neither scope lies; the scopes themselves are mappings with the same entries under some
names. One part of a run is paired with another if both end alike, or one is stopped by the guard of objects at its
scope.
-/

namespace GuardedExpr

namespace Heap

def shapeNames : List Text :=
  ["window", "children", "nodeName", "prop", "attr", "find"].map Text.of

private theorem nodeShape_congr {truth other : Text → Option Bool}
    (same : ∀ name ∈ shapeNames, truth name = other name) :
    nodeShape truth = nodeShape other := by
  unfold nodeShape
  rw [same (Text.of "children") (by simp [shapeNames]), same (Text.of "nodeName") (by simp [shapeNames]),
    same (Text.of "prop") (by simp [shapeNames]), same (Text.of "attr") (by simp [shapeNames]),
    same (Text.of "find") (by simp [shapeNames])]

/-- The guard of objects refuses a scope with the error of the outcome: since its kind has no end, or as the receiver of
a call. -/
def Stops {α : Type} (h : Heap) (scope : Ref) (received : Prop) (outcome : Except Error α) : Prop :=
  ∃ failure, outcome = .error failure ∧ Guard.object h (.ref scope) = .error failure ∧
    (failure = .fault .endless ∨ received)

theorem Stops.bind {α β : Type} {h : Heap} {scope : Ref} {received : Prop} {outcome : Except Error α}
    (stops : h.Stops scope received outcome) (next : α → Except Error β) :
    h.Stops scope received (outcome >>= next) := by
  obtain ⟨failure, rfl, refused, cause⟩ := stops
  exact ⟨failure, rfl, refused, cause⟩

end Heap

def Entries.Share (region : Ref → Prop) (entries others : Entries) (name : Text) : Prop :=
  others.find? [.text name] = entries.find? [.text name] ∧
    ∀ value, entries.find? [.text name] = some value → value.LiesIn region

inductive SameEnd {α β : Type} (related : α → β → Prop) : Except Error α → Except Error β → Prop where
  | ok {v : α} {w : β} (values : related v w) : SameEnd related (.ok v) (.ok w)
  | error (failure : Error) : SameEnd related (.error failure) (.error failure)

theorem SameEnd.mono {α β : Type} {related wider : α → β → Prop} {first : Except Error α} {second : Except Error β}
    (same : SameEnd related first second) (weaken : ∀ v w, related v w → wider v w) : SameEnd wider first second := by
  cases same with
  | ok values => exact .ok (weaken _ _ values)
  | error failure => exact .error failure

theorem sameEnd_of_eq {α : Type} {related : α → α → Prop} {outcome : Except Error α}
    (values : ∀ v, outcome = .ok v → related v v) : SameEnd related outcome outcome := by
  cases outcome with
  | ok v => exact .ok (values v rfl)
  | error failure => exact .error failure

/-- Two scopes, the region that is common to the heaps of the runs on them, and the heap that the runs began with. -/
structure Pairing where
  region : Ref → Prop
  base : Heap
  first : Ref
  second : Ref
  /-- The names under which the scopes have the same entries. -/
  names : Text → Prop
  /-- Whether the scopes are the same in all that tells their kinds. -/
  alike : Prop
  /-- Whether a scope may be the receiver of a call. -/
  received : Prop

namespace Pairing

variable {σ α β : Type} {pairing : Pairing} {a b a' b' : Heap} {name : Text}

structure Matched (pairing : Pairing) (kind other : MappingKind) (entries others : Entries) : Prop where
  writable : kind ≠ .readOnly ∧ other ≠ .readOnly
  share : ∀ name, pairing.names name → Entries.Share pairing.region entries others name
  kinds : pairing.alike → other = kind
  shape : pairing.alike → ∀ name ∈ Heap.shapeNames, pairing.names name

/-- The heaps of two runs that have come equally far. Nothing outside the region has changed but the one scope in the
one run, and the other one in the other. -/
structure Heaps (pairing : Pairing) (a b : Heap) : Prop where
  common : Heap.Common pairing.region a b
  outside : ¬ pairing.region pairing.first ∧ ¬ pairing.region pairing.second
  scopes : ∃ kind other entries others, a.cell pairing.first = .mapping kind entries ∧
    b.cell pairing.second = .mapping other others ∧ pairing.Matched kind other entries others
  left : ∀ r, ¬ pairing.region r → r ≠ pairing.first → a.cell r = pairing.base.cell r
  right : ∀ r, ¬ pairing.region r → r ≠ pairing.second → b.cell r = pairing.base.cell r

theorem Heaps.moves (heaps : pairing.Heaps a b) (move : Heap.Moves pairing.region a b a' b') :
    pairing.Heaps a' b' where
  common := move.common
  outside := heaps.outside
  scopes := by
    rw [move.left _ heaps.outside.1, move.right _ heaps.outside.2]
    exact heaps.scopes
  left r out other := (move.left r out).trans (heaps.left r out other)
  right r out other := (move.right r out).trans (heaps.right r out other)

theorem Heaps.cell (heaps : pairing.Heaps a b) {r : Ref} (one : r ≠ pairing.first) (other : r ≠ pairing.second) :
    b.cell r = a.cell r := by
  by_cases lies : pairing.region r
  · exact heaps.common.same r lies
  · rw [heaps.left r lies one, heaps.right r lies other]

theorem Heaps.inside (heaps : pairing.Heaps a b) : pairing.first < a.size ∧ pairing.second < b.size := by
  obtain ⟨out, also⟩ := heaps.outside
  refine ⟨Nat.lt_of_not_le fun beyond => out (heaps.common.fresh _ beyond), Nat.lt_of_not_le fun beyond => ?_⟩
  exact also (heaps.common.fresh _ (by rwa [← heaps.common.size]))

section Scopes

variable (heaps : pairing.Heaps a b)

include heaps

theorem Heaps.own (named : pairing.names name) :
    b.own (.ref pairing.second) name = a.own (.ref pairing.first) name ∧
      (a.own (.ref pairing.first) name).LiesIn pairing.region := by
  obtain ⟨kind, other, entries, others, left, right, matched⟩ := heaps.scopes
  obtain ⟨same, lies⟩ := matched.share name named
  rw [Heap.own_of_mapping left, Heap.own_of_mapping right]
  unfold Entries.find? at same lies
  rw [same]
  refine ⟨rfl, ?_⟩
  cases found : (Table.lookup [KeyPart.text name] entries).map Prod.snd with
  | none => trivial
  | some value => exact lies value found

/-- Scopes that are the same in all that tells their kinds are of one kind. -/
theorem Heaps.kindWithin (alike : pairing.alike) (depth : Nat) :
    b.kindWithin depth (.ref pairing.second) = a.kindWithin depth (.ref pairing.first) := by
  obtain ⟨kind, other, entries, others, left, right, matched⟩ := heaps.scopes
  have member (name : Text) (shaped : name ∈ Heap.shapeNames) := heaps.own (matched.shape alike name shaped)
  have foreign {h : Heap} {v : Value} {r : Ref} (lies : v.LiesIn pairing.region) (out : ¬ pairing.region r) :
      v ≠ .ref r := by
    rintro rfl
    exact out lies
  cases depth with
  | zero => rfl
  | succ depth =>
    have window := member (Text.of "window") (by simp [Heap.shapeNames])
    have marks : b.markedKind? (.ref pairing.second) = a.markedKind? (.ref pairing.first) := by
      simp only [Heap.markedKind?, left, right, matched.kinds alike]
      cases kind <;> rfl
    have plain : b.plainKind (.ref pairing.second) = a.plainKind (.ref pairing.first) := by
      simp only [Heap.plainKind, left, right]
    have shape : Heap.nodeShape (fun name => do
        let member := b.own (.ref pairing.second) name
        return (← b.kindWithin depth member).truth member) =
        Heap.nodeShape fun name => do
          let member := a.own (.ref pairing.first) name
          return (← a.kindWithin depth member).truth member := by
      refine Heap.nodeShape_congr fun name shaped => ?_
      obtain ⟨same, lies⟩ := member name shaped
      simp only [same, heaps.common.kindWithin depth lies]
    have first := foreign (h := a) window.2 heaps.outside.1
    have second := foreign (h := b) window.2 heaps.outside.2
    rw [← window.1] at second
    simp only [Heap.kindWithin, marks, plain, shape, first, second, if_false]

theorem Heaps.classify (alike : pairing.alike) :
    b.classify (.ref pairing.second) = a.classify (.ref pairing.first) := by
  rw [Heap.classify, Heap.classify, Heap.kind?, Heap.kind?, heaps.common.size, heaps.kindWithin alike]

end Scopes

def Agree (pairing : Pairing) (a b : Heap) (related : α → β → Prop) (first : Except Error α)
    (second : Except Error β) : Prop :=
  SameEnd related first second ∨
    ¬ pairing.alike ∧
      (a.Stops pairing.first pairing.received first ∨ b.Stops pairing.second pairing.received second)

theorem Agree.bind {γ δ : Type} {related : α → β → Prop} {further : γ → δ → Prop} {first : Except Error α}
    {second : Except Error β} {next : α → Except Error γ} {other : β → Except Error δ}
    (agree : pairing.Agree a b related first second)
    (rest : ∀ v w, related v w → pairing.Agree a b further (next v) (other w)) :
    pairing.Agree a b further (first >>= next) (second >>= other) := by
  rcases agree with (values | failure) | ⟨unlike, stops | stops⟩
  · exact rest _ _ values
  · exact .inl (.error failure)
  · exact .inr ⟨unlike, .inl (stops.bind next)⟩
  · exact .inr ⟨unlike, .inr (stops.bind other)⟩

section Questions

variable (heaps : pairing.Heaps a b)

include heaps

/-- A scope is there, unless the question for its kind has no end. -/
theorem Heaps.isTruthy :
    pairing.Agree a b (fun v w => v = true ∧ w = true) (a.isTruthy (.ref pairing.first))
      (b.isTruthy (.ref pairing.second)) := by
  have endless {h : Heap} {r : Ref} (without : h.IsEndless (.ref r)) :
      h.isTruthy (.ref r) = .error (.fault .endless) := by
    rw [Heap.isTruthy, Heap.truth?, Heap.kind?_eq_none_iff.mpr without]
    rfl
  have iff (alike : pairing.alike) : a.IsEndless (.ref pairing.first) ↔ b.IsEndless (.ref pairing.second) := by
    rw [← Heap.kind?_eq_none_iff, ← Heap.kind?_eq_none_iff, Heap.kind?, Heap.kind?, heaps.common.size,
      heaps.kindWithin alike]
  by_cases left : a.IsEndless (.ref pairing.first)
  · by_cases alike : pairing.alike
    · rw [endless left, endless ((iff alike).mp left)]
      exact .inl (.error _)
    · exact .inr ⟨alike, .inl ⟨_, endless left, Heap.object_of_isEndless left, .inl rfl⟩⟩
  · by_cases right : b.IsEndless (.ref pairing.second)
    · exact .inr ⟨fun alike => left ((iff alike).mpr right),
        .inr ⟨_, endless right, Heap.object_of_isEndless right, .inl rfl⟩⟩
    · rw [Heap.isTruthy_of_not_isEndless left, Heap.isTruthy_of_not_isEndless right]
      exact .inl (.ok ⟨rfl, rfl⟩)

theorem Heaps.object (received : pairing.received) :
    pairing.Agree a b (fun _ _ => True) (Guard.object a (.ref pairing.first))
      (Guard.object b (.ref pairing.second)) := by
  by_cases alike : pairing.alike
  · have same : Guard.object b (.ref pairing.second) = Guard.object a (.ref pairing.first) := by
      simp only [Guard.object, heaps.classify alike]
    rw [same]
    exact .inl (sameEnd_of_eq fun _ _ => trivial)
  · cases left : Guard.object a (.ref pairing.first) with
    | error failure => exact .inr ⟨alike, .inl ⟨failure, rfl, left, .inr received⟩⟩
    | ok _ =>
      cases right : Guard.object b (.ref pairing.second) with
      | error failure => exact .inr ⟨alike, .inr ⟨failure, rfl, right, .inr received⟩⟩
      | ok _ => exact .inl (.ok trivial)

theorem Heaps.hasMember (named : pairing.names name) :
    pairing.Agree a b (fun v w => w = v) (a.hasMember (.ref pairing.first) name)
      (b.hasMember (.ref pairing.second) name) := by
  obtain ⟨kind, other, entries, others, left, right, matched⟩ := heaps.scopes
  refine heaps.isTruthy.bind ?_
  rintro _ _ ⟨rfl, rfl⟩
  have same := congrArg Option.isSome (matched.share name named).1
  simp only [Entries.find?, Option.isSome_map] at same
  have leftEntries : a.entries? (.ref pairing.first) = some entries := by simp only [Heap.entries?, left]
  have rightEntries : b.entries? (.ref pairing.second) = some others := by simp only [Heap.entries?, right]
  simp only [leftEntries, rightEntries, same]
  exact .inl (.ok rfl)

theorem Heaps.getMember (named : pairing.names name) :
    b.getMember (.ref pairing.second) (.text name) = a.getMember (.ref pairing.first) (.text name) ∧
      ∀ value, a.getMember (.ref pairing.first) (.text name) = .ok value → value.LiesIn pairing.region := by
  obtain ⟨kind, other, entries, others, left, right, matched⟩ := heaps.scopes
  obtain ⟨same, lies⟩ := matched.share name named
  have leftRead : a.getMember (.ref pairing.first) (.text name) =
      .ok ((entries.find? [.text name]).getD .null) := by
    simp [Heap.getMember, Heap.entries?, left, Heap.key?, Heap.keyWithin]
  have rightRead : b.getMember (.ref pairing.second) (.text name) =
      .ok ((others.find? [.text name]).getD .null) := by
    simp [Heap.getMember, Heap.entries?, right, Heap.key?, Heap.keyWithin]
  rw [leftRead, rightRead, same]
  refine ⟨rfl, ?_⟩
  rintro value ⟨⟩
  cases found : entries.find? [.text name] with
  | none => trivial
  | some value => exact lies value found

/-- A value that lies in the region can be put into both scopes under any name. -/
theorem Heaps.setMember (name : Text) {value : Value} (lies : value.LiesIn pairing.region) :
    ∃ a' b', a.setMember (.ref pairing.first) (.text name) value = .ok a' ∧
      b.setMember (.ref pairing.second) (.text name) value = .ok b' ∧ pairing.Heaps a' b' := by
  obtain ⟨kind, other, entries, others, left, right, matched⟩ := heaps.scopes
  obtain ⟨out, also⟩ := heaps.outside
  have written {h : Heap} {r : Ref} {kind : MappingKind} {entries : Entries}
      (content : h.cell r = .mapping kind entries) (writable : kind ≠ .readOnly) :
      h.setMember (.ref r) (.text name) value =
        .ok (h.put r (.mapping kind (entries.set [.text name] (.text name) value))) := by
    cases kind with
    | readOnly => exact absurd rfl writable
    | _ => simp [Heap.setMember, content, Heap.key?, Heap.keyWithin]
  have apart {r s : Ref} (inside : pairing.region r) (foreign : ¬ pairing.region s) : r ≠ s := by
    rintro rfl
    exact foreign inside
  have found (before : Entries) (asked : Text) : (before.set [.text name] (.text name) value).find? [.text asked] =
      if asked = name then some value else before.find? [.text asked] := by
    by_cases same : asked = name
    · rw [if_pos same, same, Entries.find?, Entries.set, Table.lookup_alter_same]
      cases Table.lookup [KeyPart.text name] before <;> rfl
    · have differ : ([KeyPart.text asked] : Key) ≠ [.text name] := by simpa using same
      rw [if_neg same, Entries.find?, Entries.set, Table.lookup_alter_other _ _ differ]
      rfl
  refine ⟨_, _, written left matched.writable.1, written right matched.writable.2, ?_⟩
  exact {
    common := heaps.common.keep (fun r inside => Heap.cell_put_other a _ (apart inside out))
      (fun r inside => Heap.cell_put_other b _ (apart inside also)) (Heap.size_put a _ _) (Heap.size_put b _ _)
    outside := heaps.outside
    scopes := by
      refine ⟨kind, other, _, _, Heap.cell_put_same a _ heaps.inside.1, Heap.cell_put_same b _ heaps.inside.2, ?_⟩
      refine ⟨matched.writable, fun asked known => ?_, matched.kinds, matched.shape⟩
      obtain ⟨same, inside⟩ := matched.share asked known
      refine ⟨by rw [found, found, same], fun held present => ?_⟩
      rw [found] at present
      split at present
      · cases present
        exact lies
      · exact inside held present
    left := fun r foreign other => (Heap.cell_put_other a _ other).trans (heaps.left r foreign other)
    right := fun r foreign other => (Heap.cell_put_other b _ other).trans (heaps.right r foreign other) }

end Questions

end Pairing

def Event.call? : Event → Option (Value × List Value)
  | .invoked _ callee arguments => some (callee, arguments)
  | _ => none

def Machine.calls {σ : Type} (m : Machine σ) : List (Value × List Value) :=
  m.journal.filterMap Event.call?

namespace Pairing

variable {σ α β γ δ : Type} {pairing : Pairing} {m n : Machine σ} {related : α → β → Prop}

structure Match (pairing : Pairing) (m n : Machine σ) : Prop where
  heaps : pairing.Heaps m.heap n.heap
  world : n.world = m.world
  calls : n.calls = m.calls

abbrev Shared (pairing : Pairing) (v w : Value) : Prop :=
  w = v ∧ v.LiesIn pairing.region

theorem eq_of_sameEnd {first second : Except Error Value} (same : SameEnd pairing.Shared first second) :
    second = first ∧ ∀ v, first = .ok v → v.LiesIn pairing.region := by
  cases same with
  | ok shared =>
    obtain ⟨rfl, lies⟩ := shared
    exact ⟨rfl, fun v is => Except.ok.inj is ▸ lies⟩
  | error failure => exact ⟨rfl, nofun⟩

/-- The containers of a member in both runs: the same one in the region, or the scopes under a name that they have in
common. -/
inductive Located (pairing : Pairing) (key : Value) : Value → Value → Prop where
  | inside {v : Value} (lies : v.LiesIn pairing.region) : Located pairing key v v
  | scope {name : Text} (is : key = .text name) (named : pairing.names name) :
      Located pairing key (.ref pairing.first) (.ref pairing.second)

section Members

variable {a b : Heap} {v w key value : Value} (heaps : pairing.Heaps a b) (located : pairing.Located key v w)
  (keyLies : key.LiesIn pairing.region)

include heaps located keyLies

theorem Located.getMember :
    b.getMember w key = a.getMember v key ∧
      ∀ member, a.getMember v key = .ok member → member.LiesIn pairing.region := by
  cases located with
  | inside lies =>
    exact ⟨heaps.common.getMember lies keyLies, fun member found => heaps.common.closed.getMember lies found⟩
  | scope is named =>
    subst is
    exact heaps.getMember named

theorem Located.setMember (lies : value.LiesIn pairing.region) :
    SameEnd pairing.Heaps (a.setMember v key value) (b.setMember w key value) := by
  cases located with
  | inside inner =>
    have writes := heaps.common.setMember inner keyLies lies
    generalize a.setMember v key value = first at writes ⊢
    generalize b.setMember v key value = second at writes ⊢
    cases writes with
    | done move => exact .ok (heaps.moves move)
    | failed failure => exact .error failure
  | scope is named =>
    subst is
    obtain ⟨a', b', first, second, after⟩ := heaps.setMember _ lies
    rw [first, second]
    exact .ok after

end Members

def allows (pairing : Pairing) : ScopeUse → Prop
  | .whole => False
  | .name name => pairing.names name
  | .receiver => pairing.received

/-- Two runs that have ended alike, unless a scope was refused in one of them for what is not the same in both. -/
def Ends (pairing : Pairing) (related : α → β → Prop) (first : Except Error α × Machine σ)
    (second : Except Error β × Machine σ) : Prop :=
  (SameEnd related first.1 second.1 ∧ pairing.Match first.2 second.2) ∨
    ¬ pairing.alike ∧
      (first.2.heap.Stops pairing.first pairing.received first.1 ∨
        second.2.heap.Stops pairing.second pairing.received second.1)

theorem Match.ends_of_agree (here : pairing.Match m n) {first : Except Error α} {second : Except Error β}
    (agree : pairing.Agree m.heap n.heap related first second) : pairing.Ends related (first, m) (second, n) :=
  agree.imp (fun same => ⟨same, here⟩) id

theorem Match.note (here : pairing.Match m n) {event other : Event} (same : other.call? = event.call?) :
    pairing.Match (m.note event) (n.note other) where
  heaps := here.heaps
  world := here.world
  calls := by
    simp only [Machine.calls, Machine.note, List.filterMap_cons, same]
    split
    · exact here.calls
    · rw [show n.journal.filterMap Event.call? = m.journal.filterMap Event.call? from here.calls]

end Pairing

namespace Run

variable {σ α β γ δ : Type} {pairing : Pairing} {m n : Machine σ} {related : α → β → Prop}

def Pairs (pairing : Pairing) (related : α → β → Prop) (part : Run σ α) (other : Run σ β) : Prop :=
  ∀ m n, pairing.Match m n → pairing.Ends related (part.run.run m) (other.run.run n)

theorem pairs_mono {wider : α → β → Prop} {part : Run σ α} {other : Run σ β} (pairs : Pairs pairing related part other)
    (weaken : ∀ v w, related v w → wider v w) : Pairs pairing wider part other :=
  fun m n here => (pairs m n here).imp (fun ended => ⟨ended.1.mono weaken, ended.2⟩) id

theorem pairs_pure {v : α} {w : β} (values : related v w) :
    Pairs pairing related (pure v : Run σ α) (pure w) :=
  fun _ _ here => .inl ⟨.ok values, here⟩

theorem pairs_throw (failure : Error) :
    Pairs pairing related (throw failure : Run σ α) (throw failure : Run σ β) :=
  fun _ _ here => .inl ⟨.error failure, here⟩

theorem pairs_bind {R : α → β → Prop} {further : γ → δ → Prop} {part : Run σ α} {other : Run σ β} {next : α → Run σ γ}
    {after : β → Run σ δ} (first : Pairs pairing R part other)
    (rest : ∀ v w, R v w → Pairs pairing further (next v) (after w)) :
    Pairs pairing further (part >>= next) (other >>= after) := by
  intro m n here
  have whole := first m n here
  rw [ExceptT.run_bind, ExceptT.run_bind, StateT.run_bind, StateT.run_bind]
  generalize part.run.run m = left at whole ⊢
  generalize other.run.run n = right at whole ⊢
  rcases left with ⟨outcome, left⟩
  rcases right with ⟨result, right⟩
  rcases whole with ⟨values | failure, matched⟩ | ⟨unlike, stops | stops⟩
  · exact rest _ _ values left right matched
  · exact .inl ⟨.error failure, matched⟩
  · obtain ⟨failure, rfl, refused, cause⟩ := stops
    exact .inr ⟨unlike, .inl ⟨failure, rfl, refused, cause⟩⟩
  · obtain ⟨failure, rfl, refused, cause⟩ := stops
    exact .inr ⟨unlike, .inr ⟨failure, rfl, refused, cause⟩⟩

theorem pairs_get : Pairs pairing (fun m n => pairing.Match m n) (get : Run σ (Machine σ)) get :=
  fun _ _ here => .inl ⟨.ok here, here⟩

theorem pairs_record {event other : Event} (same : other.call? = event.call?) :
    Pairs pairing (fun _ _ => True) (record event : Run σ Unit) (record other) :=
  fun _ _ here => .inl ⟨.ok trivial, here.note same⟩

theorem run_answer (outcome : Except Error α) : (answer outcome : Run σ α).run.run m = (outcome, m) := by
  cases outcome <;> rfl

theorem run_ask (question : Heap → Except Error α) : (ask question : Run σ α).run.run m = (question m.heap, m) :=
  run_answer (question m.heap)

theorem run_has (container : Value) (name : Text) :
    (has container name : Run σ Bool).run.run m =
      (m.heap.hasMember container name,
        m.note (.asked container name (m.heap.hasMember container name).toOption)) :=
  run_answer (m.heap.hasMember container name)

theorem run_read (container : Value) (selector : Selector) (key : Value) :
    (read container selector key : Run σ Value).run.run m =
      (m.heap.getMember container key,
        m.note (.read container selector key (m.heap.getMember container key).toOption)) :=
  run_answer (m.heap.getMember container key)

theorem pairs_answer {outcome : Except Error α} {related : α → α → Prop}
    (values : ∀ v, outcome = .ok v → related v v) :
    Pairs pairing related (answer outcome : Run σ α) (answer outcome) := by
  intro m n here
  rw [run_answer, run_answer]
  exact .inl ⟨sameEnd_of_eq values, here⟩

theorem pairs_ask {question : Heap → Except Error α} {other : Heap → Except Error β}
    (agree : ∀ a b, pairing.Heaps a b → pairing.Agree a b related (question a) (other b)) :
    Pairs pairing related (ask question : Run σ α) (ask other) := by
  intro m n here
  rw [run_ask, run_ask]
  exact here.ends_of_agree (agree _ _ here.heaps)

theorem pairs_guarded {v : Value} (lies : v.LiesIn pairing.region) :
    Pairs pairing pairing.Shared (guarded v : Run σ Value) (guarded v) := by
  refine pairs_bind (R := fun _ _ => True) (pairs_ask fun a b heaps => ?_) fun _ _ _ => pairs_pure ⟨rfl, lies⟩
  rw [heaps.common.object heaps.common.size lies]
  exact .inl (sameEnd_of_eq fun _ _ => trivial)

/-- The receiver of a call under a name passes the guard in both runs, or one of them is stopped. -/
theorem pairs_guarded_scope (received : pairing.received) :
    Pairs pairing (fun _ _ => True) (guarded (.ref pairing.first) : Run σ Value) (guarded (.ref pairing.second)) :=
  pairs_bind (pairs_ask fun _ _ heaps => heaps.object received) fun _ _ _ => pairs_pure trivial

theorem pairs_isTruthy {v : Value} (lies : v.LiesIn pairing.region) :
    Pairs pairing (fun v w => w = v) (ask fun h => h.isTruthy v : Run σ Bool) (ask fun h => h.isTruthy v) := by
  refine pairs_ask fun a b heaps => ?_
  rw [heaps.common.isTruthy heaps.common.size lies]
  exact .inl (sameEnd_of_eq fun _ _ => rfl)

theorem pairs_isTruthy_scope :
    Pairs pairing (fun v w => w = v) (ask fun h => h.isTruthy (.ref pairing.first) : Run σ Bool)
      (ask fun h => h.isTruthy (.ref pairing.second)) := by
  refine pairs_ask fun a b heaps => heaps.isTruthy.imp (fun same => same.mono ?_) id
  rintro _ _ ⟨rfl, rfl⟩
  rfl

theorem pairs_has {v : Value} (lies : v.LiesIn pairing.region) (name : Text) :
    Pairs pairing (fun v w => w = v) (has v name : Run σ Bool) (has v name) := by
  intro m n here
  rw [run_has, run_has, here.heaps.common.hasMember here.heaps.common.size lies]
  exact .inl ⟨sameEnd_of_eq fun _ _ => rfl, here.note rfl⟩

theorem pairs_has_scope {name : Text} (named : pairing.names name) :
    Pairs pairing (fun v w => w = v) (has (.ref pairing.first) name : Run σ Bool) (has (.ref pairing.second) name) := by
  intro m n here
  rw [run_has, run_has]
  refine Pairing.Match.ends_of_agree (here.note ?_) (here.heaps.hasMember named)
  rfl

section Members

variable {v w key value : Value} (located : pairing.Located key v w) (keyLies : key.LiesIn pairing.region)

include located keyLies

theorem pairs_read (selector : Selector) :
    Pairs pairing pairing.Shared (read v selector key : Run σ Value) (read w selector key) := by
  intro m n here
  obtain ⟨same, lies⟩ := located.getMember here.heaps keyLies
  rw [run_read, run_read, same]
  exact .inl ⟨sameEnd_of_eq fun member found => ⟨rfl, lies member found⟩, here.note rfl⟩

theorem pairs_write (lies : value.LiesIn pairing.region) {event other : Event} (same : other.call? = event.call?) :
    Pairs pairing (fun _ _ => True) (write event v key value : Run σ Unit) (write other w key value) := by
  refine pairs_bind (pairs_record same) fun _ _ _ => pairs_bind pairs_get fun m n here => ?_
  have written := located.setMember here.heaps keyLies lies
  generalize m.heap.setMember v key value = first at written ⊢
  generalize n.heap.setMember w key value = second at written ⊢
  cases written with
  | error failure => exact pairs_throw failure
  | ok after => exact fun _ _ _ => .inl ⟨.ok trivial, ⟨after, here.world, here.calls⟩⟩

end Members

theorem pairs_alloc {cell : Cell} (lies : cell.LiesIn pairing.region) (acts : cell.ActsIn pairing.region) :
    Pairs pairing pairing.Shared (alloc cell : Run σ Value) (alloc cell) := by
  intro m n here
  have common := here.heaps.common
  refine .inl ⟨.ok ⟨congrArg Value.ref common.size, common.new⟩, ?_, here.world, here.calls⟩
  exact here.heaps.moves (common.alloc lies acts)

theorem pairs_create {v w key : Value} (located : pairing.Located key v w) (keyLies : key.LiesIn pairing.region)
    (selector : Selector) :
    Pairs pairing (fun _ _ => True) (create v selector key : Run σ Unit) (create w selector key) := by
  refine pairs_bind (pairs_alloc (List.forall_mem_nil _) trivial) ?_
  rintro made _ ⟨rfl, lies⟩
  exact pairs_write located keyLies lies rfl

theorem pairs_invoke {host : Host σ} (isLocal : host.IsLocal) (slot : Nat) {callee : Value} {arguments : List Value}
    (lies : callee.LiesIn pairing.region) (lie : ∀ argument ∈ arguments, argument.LiesIn pairing.region) :
    Pairs pairing pairing.Shared (invoke host slot callee arguments) (invoke host slot callee arguments) := by
  refine pairs_bind (pairs_record rfl) fun _ _ _ => pairs_bind pairs_get fun m n here => ?_
  have calls := isLocal pairing.region m.heap n.heap callee arguments m.world here.heaps.common lies lie
  rw [here.world]
  generalize host.call callee arguments m.heap m.world = left at calls ⊢
  generalize host.call callee arguments n.heap m.world = right at calls ⊢
  rcases left with ⟨outcome, heap, world⟩
  rcases right with ⟨result, other, after⟩
  obtain ⟨same, unchanged, value, move⟩ := calls
  dsimp only at same unchanged value move
  subst same unchanged
  refine pairs_bind (R := fun _ _ => True) (fun _ _ _ => .inl ⟨.ok trivial, ?_⟩) fun _ _ _ =>
    pairs_answer fun found done => ⟨rfl, value found done⟩
  exact ⟨here.heaps.moves move, rfl, here.calls⟩

end Run

end GuardedExpr


import GuardedExpr.Proofs.Heap.HeapRegions
import GuardedExpr.Proofs.Heap.WrittenSpots

/-!
Two heaps with a common region, in which all that is new is made. A write there is the same on both; and a host is
local if what it does when it is called is told by the callee, the arguments and what is inside them.
-/

namespace GuardedExpr

/-- Whether a function does its work in a region. A container that is registered under a name is in none. -/
def Behaviour.ActsIn (region : Ref → Prop) : Behaviour → Prop
  | .constant value => value.LiesIn region
  | .sequence container _ => container.LiesIn region
  | .put _ _ _ | .evaluate _ _ _ => False
  | _ => True

def Cell.ActsIn (region : Ref → Prop) : Cell → Prop
  | .function _ behaviour _ => behaviour.ActsIn region
  | _ => True

section Written

variable {region : Ref → Prop} {value key : Value}

theorem Fields.LieIn.insert {fields : Fields} (lie : fields.LieIn region) (lies : value.LiesIn region) (name : Text) :
    Fields.LieIn region (Table.insert name value fields) :=
  Table.forall_alter lie lies fun _ _ => lies

theorem Entries.LieIn.set {entries : Entries} (lie : entries.LieIn region) (keyLies : key.LiesIn region)
    (lies : value.LiesIn region) (hashed : Key) : (entries.set hashed key value).LieIn region :=
  Table.forall_alter (P := fun entry : Value × Value => entry.1.LiesIn region ∧ entry.2.LiesIn region) lie
    ⟨keyLies, lies⟩ fun _ both => ⟨both.1, lies⟩

end Written

theorem Value.liesIn_of_isScalar {v : Value} (scalar : v.isScalar) (region : Ref → Prop) : v.LiesIn region := by
  cases v <;> trivial

namespace Heap

variable {σ : Type} {region : Ref → Prop} {a b a' b' : Heap} {container key value v : Value} {r : Ref} {c : Cell}
  {name : Text}

structure Common (region : Ref → Prop) (a b : Heap) : Prop extends Agree region a b where
  deeds : ∀ r, region r → (a.cell r).ActsIn region
  size : b.size = a.size
  fresh : ∀ r, a.size ≤ r → region r

/-- Containers that hold none but one another, do their work there, and to which all to come belong. -/
structure IsRegion (h : Heap) (region : Ref → Prop) : Prop where
  closed : h.Encloses region
  deeds : ∀ r, region r → (h.cell r).ActsIn region
  fresh : ∀ r, h.size ≤ r → region r

theorem IsRegion.common {h : Heap} (whole : h.IsRegion region) : Common region h h :=
  ⟨⟨whole.closed, fun _ _ => rfl⟩, whole.deeds, rfl, whole.fresh⟩

structure Moves (region : Ref → Prop) (a b a' b' : Heap) : Prop where
  common : Common region a' b'
  left : ∀ r, ¬ region r → a'.cell r = a.cell r
  right : ∀ r, ¬ region r → b'.cell r = b.cell r

theorem moves_refl (common : Common region a b) : Moves region a b a b :=
  ⟨common, fun _ _ => rfl, fun _ _ => rfl⟩

theorem Moves.trans {first second : Heap} (move : Moves region a b a' b') (further : Moves region a' b' first second) :
    Moves region a b first second :=
  ⟨further.common, fun r outside => (further.left r outside).trans (move.left r outside),
    fun r outside => (further.right r outside).trans (move.right r outside)⟩

theorem cell_put (h : Heap) (r s : Ref) (c : Cell) :
    (h.put r c).cell s = if s = r ∧ r < h.size then c else h.cell s := by
  by_cases same : s = r
  · subst same
    by_cases inside : s < h.size
    · rw [if_pos ⟨rfl, inside⟩, cell_put_same h c inside]
    · have outside := Nat.le_of_not_lt inside
      rw [if_neg fun both => inside both.2, cell_outside _ outside, cell_outside _ (by rwa [size_put])]
  · rw [if_neg fun both => same both.1, cell_put_other h c same]

theorem cell_alloc_of (h : Heap) (s : Ref) (c : Cell) :
    (h.alloc c).2.cell s = if s = h.size then c else h.cell s := by
  split
  · next new =>
    subst new
    exact cell_alloc_new h c
  · next other =>
    rcases cell_alloc h c s with ⟨new, -⟩ | old
    · exact absurd new other
    · exact old

theorem Common.moves (common : Common region a b) (lies : c.LiesIn region) (acts : c.ActsIn region) {p : Ref → Prop}
    [DecidablePred p] (within : ∀ s, p s → region s) (left : ∀ s, a'.cell s = if p s then c else a.cell s)
    (right : ∀ s, b'.cell s = if p s then c else b.cell s) (size : b'.size = a'.size) (grown : a.size ≤ a'.size) :
    Moves region a b a' b' where
  common :=
    { closed := by
        intro s inside
        rw [left]
        split
        · exact lies
        · exact common.closed s inside
      same := by
        intro s inside
        rw [left, right, common.same s inside]
      deeds := by
        intro s inside
        rw [left]
        split
        · exact acts
        · exact common.deeds s inside
      size
      fresh := fun s beyond => common.fresh s (Nat.le_trans grown beyond) }
  left s outside := by rw [left, if_neg fun here => outside (within s here)]
  right s outside := by rw [right, if_neg fun here => outside (within s here)]

theorem Common.put (common : Common region a b) (inside : region r) (lies : c.LiesIn region) (acts : c.ActsIn region) :
    Moves region a b (a.put r c) (b.put r c) := by
  refine common.moves lies acts (p := fun s => s = r ∧ r < a.size) (fun s here => here.1 ▸ inside) (cell_put a r · c) ?_
    ?_ ?_
  · intro s
    rw [cell_put, common.size]
  · rw [size_put, size_put, common.size]
  · rw [size_put]

theorem Common.alloc (common : Common region a b) (lies : c.LiesIn region) (acts : c.ActsIn region) :
    Moves region a b (a.alloc c).2 (b.alloc c).2 := by
  refine common.moves lies acts (p := fun s => s = a.size) (fun s here => common.fresh s here.ge) (cell_alloc_of a · c)
    ?_ ?_ ?_
  · intro s
    rw [cell_alloc_of, common.size]
  · rw [size_alloc, size_alloc, common.size]
  · rw [size_alloc]
    exact Nat.le_succ _

theorem Common.keep (common : Common region a b) (left : ∀ r, region r → a'.cell r = a.cell r)
    (right : ∀ r, region r → b'.cell r = b.cell r) (size : a'.size = a.size) (also : b'.size = b.size) :
    Common region a' b' where
  closed r inside := by
    rw [left r inside]
    exact common.closed r inside
  same r inside := by rw [left r inside, right r inside, common.same r inside]
  deeds r inside := by
    rw [left r inside]
    exact common.deeds r inside
  size := by rw [size, also, common.size]
  fresh r beyond := common.fresh r (by rwa [← size])

theorem Common.new (common : Common region a b) : (Value.ref a.size).LiesIn region :=
  common.fresh _ (Nat.le_refl _)

inductive Writes (region : Ref → Prop) (a b : Heap) : Except Error Heap → Except Error Heap → Prop where
  | done {a' b' : Heap} (move : Moves region a b a' b') : Writes region a b (.ok a') (.ok b')
  | failed (failure : Error) : Writes region a b (.error failure) (.error failure)

section Members

variable (common : Common region a b) (lies : container.LiesIn region) (valueLies : value.LiesIn region)

include common lies valueLies

theorem Common.setAttribute (name : Text) :
    (a.setAttribute? container name value = none ∧ b.setAttribute? container name value = none) ∨
      ∃ a' b', a.setAttribute? container name value = some a' ∧ b.setAttribute? container name value = some b' ∧
        Moves region a b a' b' := by
  cases container with
  | ref r =>
    have inside := common.closed r lies
    have acts := common.deeds r lies
    simp only [setAttribute?, common.same r lies]
    cases content : a.cell r <;> rw [content] at inside acts
    case object cls fields =>
      have move := common.put lies (c := .object cls (Table.insert name value fields)) (inside.insert valueLies name)
        trivial
      cases cls
      case frozen | locked | bare => exact .inl ⟨rfl, rfl⟩
      all_goals exact .inr ⟨_, _, rfl, rfl, move⟩
    case function title behaviour fields =>
      exact .inr ⟨_, _, rfl, rfl, common.put lies (c := .function title behaviour (Table.insert name value fields))
        (inside.insert valueLies name) acts⟩
    case userClass fields =>
      exact .inr ⟨_, _, rfl, rfl, common.put lies (c := .userClass (Table.insert name value fields))
        (inside.insert valueLies name) trivial⟩
    case userInstance cls fields =>
      exact .inr ⟨_, _, rfl, rfl, common.put lies (c := .userInstance cls (Table.insert name value fields))
        ⟨inside.1, inside.2.insert valueLies name⟩ trivial⟩
    case module fields =>
      exact .inr ⟨_, _, rfl, rfl, common.put lies (c := .module (Table.insert name value fields))
        (inside.insert valueLies name) trivial⟩
    all_goals exact .inl ⟨rfl, rfl⟩
  | _ => exact .inl ⟨rfl, rfl⟩

theorem Common.setNamed (keyLies : key.LiesIn region) :
    Writes region a b (a.setNamed container key value) (b.setNamed container key value) := by
  simp only [Heap.setNamed, common.classify common.size lies, common.unsettable common.size lies keyLies]
  cases a.classify container with
  | error failure => exact .failed failure
  | ok kind =>
    simp only [bind, Except.bind]
    split
    · exact .failed _
    · split
      · next name _ =>
        rcases common.setAttribute lies valueLies name with ⟨left, right⟩ | ⟨a', b', left, right, move⟩
        · simp only [left, right]
          exact .failed _
        · simp only [left, right]
          exact .done move
      · exact .failed _

end Members

theorem Common.setItem {items : List Value} (common : Common region a b) (inside : region r)
    (content : a.cell r = .list items) (keyLies : key.LiesIn region) (valueLies : value.LiesIn region) :
    Writes region a b (a.setItem r items key value) (b.setItem r items key value) := by
  have each := common.closed r inside
  rw [content] at each
  simp only [Heap.setItem, common.showing common.size keyLies]
  cases key.position? with
  | error failure => exact .failed failure
  | ok position =>
    simp only [bind, Except.bind]
    cases position with
    | none => exact .failed _
    | some position =>
      dsimp only
      split
      · exact .failed _
      · split
        · exact .failed _
        · split
          · exact .failed _
          · refine .done (common.put inside (fun item member => ?_) trivial)
            rcases mem_writePosition member with old | rfl | rfl
            · exact each item old
            · exact valueLies
            · trivial

theorem Common.setMember (common : Common region a b) (lies : container.LiesIn region) (keyLies : key.LiesIn region)
    (valueLies : value.LiesIn region) :
    Writes region a b (a.setMember container key value) (b.setMember container key value) := by
  have named := common.setNamed lies valueLies keyLies
  cases container with
  | ref r =>
    have inside := common.closed r lies
    simp only [Heap.setMember, common.same r lies, common.key? keyLies, common.unsettable common.size lies keyLies]
    cases content : a.cell r <;> rw [content] at inside
    case mapping kind entries =>
      have written (hashed : Key) := common.put lies (c := .mapping kind (entries.set hashed key value))
        (inside.set keyLies valueLies hashed) trivial
      cases kind
      case readOnly => exact named
      all_goals
        cases a.key? key with
        | none => exact .failed _
        | some hashed => exact .done (written hashed)
    case list items => exact common.setItem lies content keyLies valueLies
    all_goals exact named
  | _ => exact named

structure Calls (region : Ref → Prop) (a b : Heap) (first second : Except Error Value × Heap × σ) : Prop where
  outcome : second.1 = first.1
  world : second.2.2 = first.2.2
  value : ∀ value, first.1 = .ok value → value.LiesIn region
  move : Moves region a b first.2.1 second.2.1

end Heap

/-- What a host does when it is called is told by the callee, the arguments and what is inside them, besides what it
keeps for itself; and it neither gives back nor changes anything else. -/
def Host.IsLocal {σ : Type} (host : Host σ) : Prop :=
  ∀ (region : Ref → Prop) (a b : Heap) (callee : Value) (arguments : List Value) (world : σ), Heap.Common region a b →
    callee.LiesIn region → (∀ argument ∈ arguments, argument.LiesIn region) →
      Heap.Calls region a b (host.call callee arguments a world) (host.call callee arguments b world)

end GuardedExpr

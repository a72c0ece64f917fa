import GuardedExpr.Proofs.Run.OrderlyRuns

/-!
Marks. A container is marked, or not, when it is made: as a global namespace or as a node of the document.
Writing to it changes what it holds but not what it is, and a call of the host is taken to do no more than
that to the containers there are.
-/

namespace GuardedExpr

variable {σ : Type}

def Kind.isForbidden : Kind → Bool
  | .hostGlobal => true
  | .hostNode => true
  | .constructor => true
  | .objectConstructor => true
  | _ => false

def Value.isDerived : Value → Bool
  | .derived _ _ => true
  | _ => false

namespace Heap

variable {before middle after h : Heap} {r : Ref} {c : Cell} {v : Value}

structure Keeps (before after : Heap) : Prop where
  grown : before.size ≤ after.size
  marked : ∀ r, r < before.size → (after.cell r).mark? = (before.cell r).mark?

theorem Keeps.refl (h : Heap) : h.Keeps h :=
  ⟨Nat.le_refl _, fun _ _ => rfl⟩

theorem Keeps.trans (first : before.Keeps middle) (second : middle.Keeps after) : before.Keeps after where
  grown := Nat.le_trans first.grown second.grown
  marked := by
    intro r inside
    rw [second.marked r (Nat.lt_of_lt_of_le inside first.grown), first.marked r inside]

theorem keeps_alloc (h : Heap) (c : Cell) : h.Keeps (h.alloc c).2 where
  grown := by
    rw [size_alloc]
    exact Nat.le_succ _
  marked := fun r inside => by rw [cell_alloc_old h c inside]

theorem keeps_put {old : Cell} (found : h.cell r = old) (same : c.mark? = old.mark?) :
    h.Keeps (h.put r c) where
  grown := Nat.le_of_eq (size_put h r c).symm
  marked := by
    intro other inside
    by_cases here : other = r
    · rw [here] at inside ⊢
      rw [cell_put_same h c inside, same, found]
    · rw [cell_put_other h c here]

private theorem keeps_of_setAttribute {name : Text} {value : Value}
    (written : h.setAttribute? v name value = some after) : h.Keeps after := by
  cases v with
  | ref r =>
    cases found : h.cell r with
    | object cls fields =>
      simp only [setAttribute?, found] at written
      cases cls <;> cases written <;> exact keeps_put found rfl
    | function title behaviour fields =>
      simp only [setAttribute?, found] at written
      cases written
      exact keeps_put found rfl
    | userClass fields =>
      simp only [setAttribute?, found] at written
      cases written
      exact keeps_put found rfl
    | userInstance cls fields =>
      simp only [setAttribute?, found] at written
      cases written
      exact keeps_put found rfl
    | module fields =>
      simp only [setAttribute?, found] at written
      cases written
      exact keeps_put found rfl
    | _ =>
      simp only [setAttribute?, found] at written
      cases written
  | _ => cases written

private theorem keeps_of_setItem {items : List Value} {key value : Value}
    (isList : h.cell r = .list items)
    (written : h.setItem r items key value = .ok after) : h.Keeps after := by
  rw [setItem, bind_eq_ok] at written
  obtain ⟨position, _, written⟩ := written
  cases position with
  | none => cases written
  | some position =>
    simp only at written
    split at written
    · cases written
    · split at written
      · cases written
      · split at written
        · cases written
        · cases written
          exact keeps_put isList rfl

theorem keeps_of_setNamed {container key value : Value}
    (written : h.setNamed container key value = .ok after) : h.Keeps after := by
  unfold setNamed at written
  rw [bind_eq_ok] at written
  obtain ⟨kind, _, written⟩ := written
  dsimp only at written
  split at written
  · cases written
  · split at written
    · split at written
      · next done =>
        cases written
        exact keeps_of_setAttribute done
      · cases written
    · cases written

theorem keeps_of_setMember {container key value : Value}
    (written : h.setMember container key value = .ok after) : h.Keeps after := by
  cases container with
  | ref r =>
    simp only [setMember] at written
    split at written
    · exact keeps_of_setNamed written
    · next kind entries notReadOnly isMapping =>
      split at written
      · cases written
        apply keeps_put
        rw [isMapping]
        cases kind <;> rfl
      · cases written
    · next items isList => exact keeps_of_setItem isList written
    · exact keeps_of_setNamed written
  | _ =>
    simp only [setMember] at written
    exact keeps_of_setNamed written

/-- Whether a value may not be used as an object for what it is, and not for what it looks like: an instance of a
class that is marked as one of global namespaces or of nodes, a class of classes, or the class of all objects. A
reference that has no cell is no object and counts among them. -/
def isForbidden (h : Heap) : Value → Bool
  | .derived cls _ => cls.mark.isSome
  | v => (h.markedKind? v).any Kind.isForbidden

private theorem inside_of_free (free : h.isForbidden (.ref r) = false) : r < h.size := by
  by_contra outside
  simp only [isForbidden, h.markedKind?_outside (Nat.le_of_not_lt outside)] at free
  cases free

theorem Keeps.free (keeps : before.Keeps after) (free : before.isForbidden v = false) :
    after.isForbidden v = false := by
  cases v with
  | ref r =>
    have inside := inside_of_free free
    simp only [isForbidden, markedKind?] at free ⊢
    rw [keeps.marked r inside]
    exact free
  | constructor c => cases c <;> exact free
  | _ => exact free

theorem usable_of_free (free : h.isForbidden v = false) : h.isForbidden v → v.isDerived := by
  rw [free]
  exact nofun

theorem Keeps.usable (keeps : before.Keeps after) (usable : before.isForbidden v → v.isDerived) :
    after.isForbidden v → v.isDerived := by
  cases free : before.isForbidden v with
  | true => exact fun _ => usable free
  | false => exact usable_of_free (keeps.free free)

/-- A new container is free to be used unless it is marked. -/
theorem free_alloc (unmarked : c.mark? = none) : (h.alloc c).2.isForbidden (.ref h.size) = false := by
  have new : (h.alloc c).2.cell h.size = c := cell_alloc_new h c
  simp only [isForbidden, markedKind?, new, unmarked, Option.any_none]

private theorem free_of_scalar (isScalar : v.isScalar) : h.isForbidden v = false := by
  cases v <;> first | rfl | cases isScalar

/-- What the guard of objects lets pass is free to be used, or a number or a text, of which it does not ask the class. -/
theorem usable_of_object (passed : Guard.object h v = .ok ()) : h.isForbidden v → v.isDerived := by
  obtain ⟨kind, decided, allowed⟩ := Guard.object_eq_ok.mp passed
  intro forbidden
  by_contra other
  have asked : h.isForbidden v = (h.markedKind? v).any Kind.isForbidden := by
    cases v <;> first | rfl | exact absurd rfl other
  rw [asked] at forbidden
  cases marked : h.markedKind? v with
  | none =>
    rw [marked] at forbidden
    cases forbidden
  | some mark =>
    rw [kind?_of_marked marked] at decided
    cases decided
    rw [marked, Option.any_some] at forbidden
    cases kind <;> first | cases allowed; done | cases forbidden

end Heap

/-- A host whose calls leave every container what it is: the class of an object is the same for good. A call
may change what containers hold in any way, and make new ones of any class. -/
def Host.KeepsMarks (host : Host σ) : Prop :=
  ∀ (callee : Value) (arguments : List Value) (h : Heap) (world : σ),
    h.Keeps (host.call callee arguments h world).2.1

/-- In a narrower sense, values are fit if they are free to be used, or numbers or texts of a derived class. -/
theorem Fitness.free {host : Host σ} (keeps : host.KeepsMarks) :
    Fitness host fun h value => h.isForbidden value → value.isDerived where
  scalar isScalar := Heap.usable_of_free (Heap.free_of_scalar isScalar)
  guarded := Heap.usable_of_object
  list := Heap.usable_of_free (Heap.free_alloc rfl)
  mapping := Heap.usable_of_free (Heap.free_alloc rfl)
  alloc := (Heap.keeps_alloc _ _).usable
  write written := (Heap.keeps_of_setMember written).usable
  call := (keeps _ _ _ _).usable

end GuardedExpr

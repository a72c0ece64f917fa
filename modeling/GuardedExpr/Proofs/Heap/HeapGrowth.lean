import GuardedExpr.Proofs.Heap.ClosedHeaps

/-!
Growing heaps. A heap grows when cells are added to it and none is overwritten. What lay in a closed heap then
has the members, the positions and the keys that it had before.
-/

namespace GuardedExpr.Heap

variable {before middle after h : Heap} {v container key : Value}

structure Grows (h after : Heap) : Prop where
  grown : h.size ≤ after.size
  same : ∀ r, r < h.size → after.cell r = h.cell r

theorem Grows.refl (h : Heap) : h.Grows h :=
  ⟨Nat.le_refl _, fun _ _ => rfl⟩

theorem Grows.trans (first : before.Grows middle) (second : middle.Grows after) : before.Grows after where
  grown := Nat.le_trans first.grown second.grown
  same := by
    intro r inside
    rw [second.same r (Nat.lt_of_lt_of_le inside first.grown), first.same r inside]

theorem grows_alloc (h : Heap) (c : Cell) : h.Grows (h.alloc c).2 where
  grown := by
    rw [size_alloc]
    exact Nat.le_succ _
  same := fun r inside => cell_alloc_old h c inside

theorem inside_of_cell {r : Ref} {c : Cell} (content : h.cell r = c) (other : c ≠ .module []) :
    r < h.size :=
  Nat.lt_of_not_le fun outside => other (content.symm.trans (h.cell_outside outside))

theorem inside_of_list {r : Ref} {items : List Value} (content : h.cell r = .list items) : r < h.size :=
  inside_of_cell content (by simp)

theorem inside_of_mapping {r : Ref} {kind : MappingKind} {entries : Entries}
    (content : h.cell r = .mapping kind entries) : r < h.size :=
  inside_of_cell content (by simp)

/-- A new cell that refers to nothing but what is in the heap leaves it closed. -/
theorem IsClosed.alloc (closed : h.IsClosed) {c : Cell} (below : c.isBelow h.size) :
    (h.alloc c).2.IsClosed := by
  intro r inside
  rw [size_alloc] at inside ⊢
  rcases Nat.lt_succ_iff_lt_or_eq.mp inside with old | new
  · rw [cell_alloc_old h c old]
    exact Cell.isBelow_mono (Nat.le_succ _) (closed r old)
  · have same : (h.alloc c).2.cell h.size = c := cell_alloc_new h c
    rw [new, same]
    exact Cell.isBelow_mono (Nat.le_succ _) below

section Old

variable (grows : h.Grows after)

include grows

theorem Grows.entries? (below : v.isBelow h.size) : after.entries? v = h.entries? v := by
  cases v with
  | ref r => simp only [Heap.entries?, grows.same r (of_decide_eq_true below)]
  | _ => rfl

theorem Grows.agree (closed : h.IsClosed) : Agree (· < h.size) h after :=
  ⟨closed.encloses, grows.same⟩

theorem Grows.attribute? (closed : h.IsClosed) (below : v.isBelow h.size) (name : Text) :
    after.attribute? v name = h.attribute? v name :=
  (grows.agree closed).attribute? (liesIn_iff.mpr below) name

theorem Grows.own (closed : h.IsClosed) (below : v.isBelow h.size) (name : Text) :
    after.own v name = h.own v name :=
  (grows.agree closed).own (liesIn_iff.mpr below) name

theorem Grows.key? (closed : h.IsClosed) (below : v.isBelow h.size) : after.key? v = h.key? v :=
  (grows.agree closed).key? (liesIn_iff.mpr below)

/-- Members of what lay in the heap are the same as before, under all keys that lay in it. -/
theorem Grows.getMember (closed : h.IsClosed) (below : container.isBelow h.size)
    (keyBelow : key.isBelow h.size) : after.getMember container key = h.getMember container key :=
  (grows.agree closed).getMember (liesIn_iff.mpr below) (liesIn_iff.mpr keyBelow)

end Old

end GuardedExpr.Heap

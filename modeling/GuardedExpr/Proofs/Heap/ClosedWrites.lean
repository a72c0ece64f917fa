import GuardedExpr.Proofs.Heap.HeapGrowth

/-!
Writing to closed heaps. A heap stays closed when something that lies in it is put under a key that lies in it.
-/

namespace GuardedExpr

variable {h after : Heap} {container key value v : Value} {r : Ref}

private theorem Fields.areBelow_insert {fields : Fields} {bound : Nat}
    (below : fields.areBelow bound)
    (name : Text) (inside : value.isBelow bound) :
    Fields.areBelow bound (Table.insert name value fields) := by
  unfold Fields.areBelow Table.insert at *
  induction fields with
  | nil => simpa [Table.alter] using inside
  | cons field rest hypothesis =>
    obtain ⟨first, others⟩ := Bool.and_eq_true_iff.mp below
    simp only [Table.alter]
    split
    · exact Bool.and_eq_true_iff.mpr ⟨inside, others⟩
    · exact Bool.and_eq_true_iff.mpr ⟨first, hypothesis others⟩

theorem Entries.areBelow_set {entries : Entries} {bound : Nat} (below : entries.areBelow bound)
    {hashed : Key} (hashedBelow : hashed.all (·.isBelow bound)) (keyBelow : key.isBelow bound)
    (inside : value.isBelow bound) : Entries.areBelow bound (entries.set hashed key value) := by
  unfold Entries.areBelow Entries.set at *
  induction entries with
  | nil => simpa [Table.alter, keyBelow, inside] using hashedBelow
  | cons entry rest hypothesis =>
    obtain ⟨first, others⟩ := Bool.and_eq_true_iff.mp below
    simp only [Table.alter]
    split
    · obtain ⟨shown, _⟩ := Bool.and_eq_true_iff.mp first
      exact Bool.and_eq_true_iff.mpr ⟨Bool.and_eq_true_iff.mpr ⟨shown, inside⟩, others⟩
    · exact Bool.and_eq_true_iff.mpr ⟨first, hypothesis others⟩

namespace Heap

theorem IsClosed.put (closed : h.IsClosed) {c : Cell} (below : c.isBelow h.size) : (h.put r c).IsClosed := by
  intro other inside
  rw [size_put] at inside ⊢
  by_cases here : other = r
  · rw [here, cell_put_same h c (here ▸ inside)]
    exact below
  · rw [cell_put_other h c here]
    exact closed other inside

private theorem all_flatten_of_mapM {good : KeyPart → Bool} {part : Value → Option Key}
    {items : List Value}
    (each : ∀ item ∈ items, ∀ key, part item = some key → key.all good) {keys : List Key}
    (found : items.mapM part = some keys) : keys.flatten.all good := by
  induction items generalizing keys with
  | nil =>
    cases found
    rfl
  | cons item rest hypothesis =>
    rw [List.forall_mem_cons] at each
    rw [List.mapM_cons] at found
    obtain ⟨key, head, found⟩ := Option.bind_eq_some_iff.mp found
    obtain ⟨others, tail, same⟩ := Option.bind_eq_some_iff.mp found
    cases same
    rw [List.flatten_cons, List.all_append]
    exact Bool.and_eq_true_iff.mpr ⟨each.1 key head, hypothesis each.2 tail⟩

theorem IsClosed.keyWithin (closed : h.IsClosed) (depth : Nat) (below : v.isBelow h.size) {hashed : Key}
    (found : h.keyWithin depth v = some hashed) : hashed.all (·.isBelow h.size) := by
  have single {part : KeyPart} (below : part.isBelow h.size) : [part].all (·.isBelow h.size) := by
    simpa using below
  have float (x : Double) : x.keyPart.isBelow h.size := by
    simp only [Double.keyPart]
    split <;> rfl
  induction depth using Nat.strongRecOn generalizing v hashed with
  | ind depth hypothesis =>
    unfold Heap.keyWithin at found
    split at found
    · cases found; rfl
    · cases found; rfl
    · cases found; rfl
    · cases found; exact single (float _)
    · cases found; rfl
    · cases found; rfl
    · cases found; rfl
    · next scalar =>
      cases found
      cases scalar <;> first | rfl | exact single (float _)
    · cases found; exact single below
    · next r =>
      have inside := closed r (of_decide_eq_true below)
      split at found
      · cases found
      · cases found
      · next items isTuple =>
        rw [isTuple] at inside
        have items := List.all_eq_true.mp inside
        cases depth with
        | zero => cases found
        | succ depth =>
          obtain ⟨keys, each, same⟩ := Option.bind_eq_some_iff.mp found
          cases same
          refine all_flatten_of_mapM (fun item member _ => ?_) each
          exact hypothesis depth (Nat.lt_succ_self depth) (items item member)
      · cases found; exact single below

theorem IsClosed.key? (closed : h.IsClosed) (below : v.isBelow h.size) {hashed : Key}
    (found : h.key? v = some hashed) : hashed.all (·.isBelow h.size) := by
  cases v with
  | ref r => exact closed.keyWithin (r + 1) below found
  | _ => exact closed.keyWithin 0 below found

theorem IsClosed.setAttribute (closed : h.IsClosed) {name : Text} (inside : value.isBelow h.size)
    (written : h.setAttribute? container name value = some after) :
    after.IsClosed ∧ after.size = h.size := by
  have put {r : Ref} {c : Cell} {fields : Fields} (found : fields? (h.cell r) = some fields)
      (cell : Fields.areBelow h.size (Table.insert name value fields) → c.isBelow h.size)
      (same : some (h.put r c) = some after) : after.IsClosed ∧ after.size = h.size := by
    cases same
    exact ⟨closed.put (cell (Fields.areBelow_insert (closed.fields found) name inside)), size_put h r c⟩
  cases container with
  | ref r =>
    have below := closed.cell r
    simp only [setAttribute?] at written
    split at written
    · cases written
    · cases written
    · cases written
    · next found => exact put (by rw [found]; rfl) id written
    · next found => exact put (by rw [found]; rfl) id written
    · next found => exact put (by rw [found]; rfl) id written
    · next cls fields found =>
      rw [found] at below
      have known := (Bool.and_eq_true_iff.mp below).1
      have cell (below : Fields.areBelow h.size (Table.insert name value fields)) :
          (Cell.userInstance cls (Table.insert name value fields)).isBelow h.size :=
        Bool.and_eq_true_iff.mpr ⟨known, below⟩
      exact put (by rw [found]; rfl) cell written
    · next found => exact put (by rw [found]; rfl) id written
    · cases written
  | _ => cases written

theorem IsClosed.setItem (closed : h.IsClosed) {items : List Value} (isList : h.cell r = .list items)
    (inside : value.isBelow h.size) (written : h.setItem r items key value = .ok after) :
    after.IsClosed ∧ after.size = h.size := by
  have below := closed.cell r
  rw [isList] at below
  rw [Heap.setItem, bind_eq_ok] at written
  obtain ⟨position, _, written⟩ := written
  cases position with
  | none => cases written
  | some position =>
    simp only at written
    split at written
    · cases written
    · split at written
      · cases written
      · split at written
        · cases written
        · cases written
          refine ⟨closed.put ?_, size_put _ _ _⟩
          refine List.all_eq_true.mpr fun item member => ?_
          rcases List.mem_or_eq_of_mem_set member with old | new
          · rcases List.mem_append.mp old with earlier | padded
            · exact List.all_eq_true.mp below item earlier
            · rw [(List.mem_replicate.mp padded).2]
              rfl
          · exact new ▸ inside

theorem IsClosed.setNamed (closed : h.IsClosed) (inside : value.isBelow h.size)
    (written : h.setNamed container key value = .ok after) : after.IsClosed ∧ after.size = h.size := by
  unfold Heap.setNamed at written
  rw [bind_eq_ok] at written
  obtain ⟨kind, _, written⟩ := written
  dsimp only at written
  split at written
  · cases written
  · split at written
    · split at written
      · next done =>
        cases written
        exact closed.setAttribute inside done
      · cases written
    · cases written

/-- A heap stays closed when something that lies in it is put into a member. -/
theorem IsClosed.setMember (closed : h.IsClosed) (keyBelow : key.isBelow h.size)
    (inside : value.isBelow h.size) (written : h.setMember container key value = .ok after) :
    after.IsClosed ∧ after.size = h.size := by
  cases container with
  | ref r =>
    have below := closed.cell r
    simp only [Heap.setMember] at written
    split at written
    · exact closed.setNamed inside written
    · next kind entries _ isMapping =>
      rw [isMapping] at below
      split at written
      · next hashed found =>
        cases written
        exact ⟨closed.put (Entries.areBelow_set below (closed.key? keyBelow found) keyBelow inside),
          size_put _ _ _⟩
      · cases written
    · next items isList => exact closed.setItem isList inside written
    · exact closed.setNamed inside written
  | _ =>
    simp only [Heap.setMember] at written
    exact closed.setNamed inside written

end Heap

end GuardedExpr

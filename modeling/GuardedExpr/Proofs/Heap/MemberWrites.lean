import GuardedExpr.Proofs.Heap.WrittenSpots

/-!
Members that are written are read again. A write that succeeds changes what stands under the keys that mean the same
spot as its own, and how long a list is; all else reads as before. A write that fails changes nothing.
-/

namespace GuardedExpr

def Cell.isSettable : Cell → Bool
  | .list _ => true
  | .mapping kind _ => kind != .readOnly
  | .object .box _ => true
  | _ => false

namespace Heap

variable {h after : Heap} {r : Ref} {key other value : Value} {hashed : Key} {position : Nat} {name : Text}
  {kind again : MappingKind} {entries others : Entries} {items : List Value} {fields : Fields}

def SameSpot (h : Heap) (r : Ref) (key other : Value) : Prop :=
  ∃ spot, h.Names r key spot ∧ h.Names r other spot

/-! Entries of mappings. -/

private theorem keyWithin_put (content : h.cell r = .mapping kind entries) (depth : Nat)
    (v : Value) :
    (h.put r (.mapping again others)).keyWithin depth v = h.keyWithin depth v := by
  have inside : r < h.size := inside_of_mapping content
  induction depth generalizing v with
  | zero =>
    cases v with
    | ref s =>
      by_cases here : s = r
      · subst here
        simp only [keyWithin, cell_put_same h _ inside, content]
      · simp only [keyWithin, cell_put_other h _ here]
    | _ => rfl
  | succ depth hypothesis =>
    cases v with
    | ref s =>
      by_cases here : s = r
      · subst here
        simp only [keyWithin, cell_put_same h _ inside, content]
      · have same : (h.put r (.mapping again others)).keyWithin depth = h.keyWithin depth := funext hypothesis
        simp only [keyWithin, cell_put_other h _ here, same]
    | _ => rfl

private theorem key?_put (content : h.cell r = .mapping kind entries) (v : Value) :
    (h.put r (.mapping again others)).key? v = h.key? v := by
  cases v <;> exact keyWithin_put content _ _

/-- After an entry was written, its key reads as the value, and every other key as before. -/
theorem getMember_put_entry (content : h.cell r = .mapping kind entries) :
    (h.put r (.mapping kind (entries.set hashed key value))).getMember (.ref r) other =
      if h.key? other = some hashed then .ok value else h.getMember (.ref r) other := by
  have new := h.cell_put_same (.mapping kind (entries.set hashed key value)) (inside_of_mapping content)
  rw [getMember_of_mapping new, getMember_of_mapping content, key?_put content]
  cases found : h.key? other with
  | none => rfl
  | some k =>
    simp only [Option.bind_some, Option.some.injEq, Entries.find?, Entries.set]
    split
    · next same =>
      rw [same, Table.lookup_alter_same]
      cases Table.lookup hashed entries <;> rfl
    · next differ => rw [Table.lookup_alter_other _ _ differ]

/-! Positions of lists. -/

private theorem length_writePosition (items : List Value) (position : Nat) (value : Value) :
    (writePosition items position value).length = max items.length (position + 1) := by
  rw [writePosition, List.length_set, List.length_append, List.length_replicate]
  omega

theorem getElem?_writePosition (items : List Value) (position : Nat) (value : Value) (index : Nat) :
    (writePosition items position value)[index]? =
      if index = position then some value
      else if items.length ≤ index ∧ index < position then some .null else items[index]? := by
  rw [writePosition]
  by_cases here : index = position
  · subst here
    rw [if_pos rfl, List.getElem?_set_self]
    rw [List.length_append, List.length_replicate]
    omega
  · rw [if_neg here, List.getElem?_set_ne (Ne.symm here)]
    by_cases inside : index < items.length
    · rw [List.getElem?_append_left inside, if_neg (by omega)]
    · rw [List.getElem?_append_right (by omega), List.getElem?_replicate, List.getElem?_eq_none (l := items) (by omega)]
      split <;> split <;> first | rfl | omega

/-- What reads as null behind the end of a list reads as null once it is filled. -/
theorem itemAt_writePosition (items : List Value) (position : Nat) (value : Value) (index : Int) :
    itemAt (writePosition items position value) id index =
      if index = position then value else itemAt items id index := by
  unfold itemAt
  by_cases below : index < 0
  · rw [if_pos below, if_pos below, if_neg (by omega)]
  · rw [if_neg below, if_neg below, getElem?_writePosition]
    by_cases here : index = position
    · rw [if_pos (by omega), if_pos here]
      rfl
    · rw [if_neg (by omega), if_neg here]
      by_cases gap : items.length ≤ index.toNat ∧ index.toNat < position
      · rw [if_pos gap, List.getElem?_eq_none gap.1]
        rfl
      · rw [if_neg gap]

private theorem namedMember_put (content : h.cell r = .list items) (filled : List Value) :
    (h.put r (.list filled)).namedMember (.ref r) key = h.namedMember (.ref r) key := by
  have new := h.cell_put_same (.list filled) (inside_of_list content)
  simp only [namedMember, attribute?, fields?, inherited?, content, new]

/-- After a position was written, it reads as the value, the length as what it has become, and all else as before. -/
theorem getMember_put_item (content : h.cell r = .list items) :
    (h.put r (.list (writePosition items position value))).getMember (.ref r) other =
      if other.position? = .ok (some (position : Int)) then .ok value
      else if other.plain = .text (Text.of "length") then .ok (.int (max items.length (position + 1) : Nat))
      else h.getMember (.ref r) other := by
  have new := h.cell_put_same (.list (writePosition items position value)) (inside_of_list content)
  rw [getMember_of_list new, getMember_of_list content, positionedMember, positionedMember,
    length_writePosition, namedMember_put content]
  by_cases length : other.plain = .text (Text.of "length")
  · have word : other.position? = .ok none := by
      rw [Value.position?, length]
      rfl
    simp only [word, length]
    rfl
  · simp only [if_neg length]
    rcases other.position? with failure | _ | index
    · rfl
    · rfl
    · simp only [Except.ok.injEq, Option.some.injEq]
      change Except.ok (itemAt (writePosition items position value) id index) = _
      rw [itemAt_writePosition]
      split <;> rfl

/-! Attributes of objects. -/

theorem getMember_of_box (content : h.cell r = .object .box fields) :
    h.getMember (.ref r) key = .ok (match key.plain with
      | .text name => (Table.lookup name fields).getD .null
      | _ => .null) := by
  have read (name : Text) : h.attribute? (.ref r) name = Table.lookup name fields := by
    cases found : Table.lookup name fields <;> simp [attribute?, fields?, inherited?, content, found]
  cases plain : key.plain <;> simp [getMember, entries?, items?, content, namedMember, read, plain]

/-- After an attribute was written, its name reads as the value, and every other key as before. -/
theorem getMember_put_field (content : h.cell r = .object .box fields) :
    (h.put r (.object .box (Table.insert name value fields))).getMember (.ref r) other =
      if other.plain = .text name then .ok value else h.getMember (.ref r) other := by
  have new := h.cell_put_same (.object .box (Table.insert name value fields)) (inside_of_cell content nofun)
  rw [getMember_of_box new, getMember_of_box content]
  generalize other.plain = plain
  cases plain with
  | text word =>
    by_cases same : word = name
    · subst same
      rw [if_pos rfl]
      simp only [Table.lookup_insert_same, Option.getD_some]
    · rw [if_neg (by simpa using same)]
      simp only [Table.lookup_insert_other _ _ same]
  | _ => rfl

private theorem setMember_of_box (content : h.cell r = .object .box fields)
    (written : h.setMember (.ref r) key value = .ok after) :
    ∃ name, key.plain = .text name ∧ after = h.put r (.object .box (Table.insert name value fields)) := by
  have named : h.setNamed (.ref r) key value = .ok after := by simpa only [setMember, content] using written
  obtain ⟨name, spelled, done⟩ := setNamed_eq_ok named
  simp only [setAttribute?, content, Option.some.injEq] at done
  exact ⟨name, spelled, done.symm⟩

/-! Containers of each family. -/

/-- What was written is read again, and what is read under keys that mean another spot is what it was, but for how long
a list is. -/
theorem getMember_of_settable (settable : (h.cell r).isSettable)
    (written : h.setMember (.ref r) key value = .ok after) :
    after.getMember (.ref r) key = .ok value ∧ ∀ other, ¬ h.SameSpot r key other →
      (∀ items, h.cell r = .list items → other.plain ≠ .text (Text.of "length")) →
        after.getMember (.ref r) other = h.getMember (.ref r) other := by
  by_cases writable : (h.cell r).isWritable
  · rcases setMember_cases writable written with
      ⟨kind, entries, hashed, content, found, rfl⟩ | ⟨items, position, content, found, rfl⟩
    · refine ⟨by rw [getMember_put_entry content, if_pos found], fun other apart _ => ?_⟩
      rw [getMember_put_entry content, if_neg fun also => apart
        ⟨.entry hashed, ⟨found, kind, entries, content⟩, also, kind, entries, content⟩]
    · refine ⟨by rw [getMember_put_item content, if_pos found], fun other apart noLength => ?_⟩
      rw [getMember_put_item content, if_neg fun also => apart
        ⟨.position position, ⟨found, items, content⟩, also, items, content⟩, if_neg (noLength items content)]
  · obtain ⟨fields, content⟩ : ∃ fields, h.cell r = .object .box fields := by
      cases content : h.cell r with
      | object cls fields =>
        rw [content] at settable
        cases cls <;> first | exact ⟨fields, rfl⟩ | cases settable
      | list => exact absurd (by rw [content]; rfl) writable
      | mapping => exact absurd (by rw [content] at settable ⊢; exact settable) writable
      | _ =>
        rw [content] at settable
        cases settable
    obtain ⟨name, spelled, rfl⟩ := setMember_of_box content written
    have some_ : (fields? (h.cell r)).isSome := by rw [content]; rfl
    refine ⟨by rw [getMember_put_field content, if_pos spelled], fun other apart _ => ?_⟩
    rw [getMember_put_field content, if_neg fun same => apart ⟨.field name, ⟨spelled, some_⟩, same, some_⟩]

end Heap

open Heap

variable {σ : Type} {host : Host σ} {frame : Frame} {m : Machine σ} {site i j k : Nat} {container key value : Value}

private theorem Code.leads_store_slots {good : Value → Machine σ → Prop}
    {bad : Error → Machine σ → Prop}
    (held : frame.slots[i]? = some container) (keyed : frame.slots[j]? = some key)
    (valued : frame.slots[k]? = some value) :
    ((Code.store site (.slot i) (.slot j) (.slot k)).run host frame).Leads m good bad ↔
      (∀ heap, m.heap.setMember container key value = .ok heap →
        good value { m.note (.stored site container (.slot j) key value) with heap := heap }) ∧
      ∀ failure, m.heap.setMember container key value = .error failure →
        bad failure (m.note (.stored site container (.slot j) key value)) := by
  simp only [Code.run, Selector.key, Frame.slot, held, keyed, valued, pure_bind, Run.leads_bind, Run.leads_write,
    Run.leads_pure]

/-- Writing a member and reading it again is a lens. In a list, a mapping that may change or an object with attributes
of its own, a write that succeeds gives the value that it wrote, its key reads as that value, and every key that means
another spot reads as before; a list grows as far as necessary by nulls, and its length with it. A write that fails
leaves all containers as they were. -/
theorem Code.store_reads_back (host : Host σ) (frame : Frame) (m : Machine σ) (site : Nat) {r : Ref}
    (held : frame.slots[i]? = some (.ref r)) (keyed : frame.slots[j]? = some key)
    (valued : frame.slots[k]? = some value) (settable : (m.heap.cell r).isSettable) :
    ((Code.store site (.slot i) (.slot j) (.slot k)).run host frame).Leads m
      (fun returned after => returned = value ∧ after.heap.getMember (.ref r) key = .ok value ∧
        (∀ other, ¬ m.heap.SameSpot r key other →
          (∀ items, m.heap.cell r = .list items → other.plain ≠ .text (Text.of "length")) →
            after.heap.getMember (.ref r) other = m.heap.getMember (.ref r) other) ∧
        ∀ items, m.heap.cell r = .list items → ∃ (index : Nat) (filled : List Value),
          key.position? = .ok (some (index : Int)) ∧ after.heap.cell r = .list filled ∧
          (∀ p, items.length ≤ p → p < index → filled[p]? = some .null) ∧
          after.heap.getMember (.ref r) (.text (Text.of "length")) =
            .ok (.int (max items.length (index + 1) : Nat)))
      fun _ after => after.heap = m.heap := by
  refine (Code.leads_store_slots held keyed valued).mpr ⟨fun heap written => ?_, fun _ _ => rfl⟩
  obtain ⟨again, others⟩ := getMember_of_settable settable written
  refine ⟨rfl, again, others, fun items content => ?_⟩
  have stored : m.heap.setItem r items key value = .ok heap := by simpa only [setMember, content] using written
  obtain ⟨index, found, rfl⟩ := setItem_eq_ok stored
  have new := m.heap.cell_put_same (.list (writePosition items index value)) (inside_of_list content)
  refine ⟨index, _, found, new, fun p outside before => ?_, ?_⟩
  · rw [getElem?_writePosition, if_neg (by omega), if_pos ⟨outside, before⟩]
  · rw [getMember_put_item content, if_neg (by rintro ⟨⟩), if_pos rfl]

/-- Digits are a position, and the gap before it is filled. -/
theorem Code.store_fills_gap :
    let host : Host Unit := ⟨fun _ _ heap world => (.ok .null, heap, world)⟩
    let m : Machine Unit := ⟨⟨#[.list [.int 1]]⟩, (), []⟩
    let frame : Frame := ⟨.null, .null, .null, [.ref 0, .text (Text.of "2"), .int 7], .null⟩
    (m.heap.cell 0).isSettable ∧ ¬ m.heap.SameSpot 0 (.text (Text.of "2")) (.int 0) ∧
    ((Code.store 0 (.slot 0) (.slot 1) (.slot 2)).run host frame).Leads m
      (fun returned after => returned = .int 7 ∧ after.heap.getMember (.ref 0) (.text (Text.of "2")) = .ok (.int 7) ∧
        after.heap.getMember (.ref 0) (.int 0) = .ok (.int 1) ∧
        after.heap.getMember (.ref 0) (.text (Text.of "length")) = .ok (.int 3))
      fun _ _ => False := by
  intro host m frame
  have settable : (m.heap.cell 0).isSettable := rfl
  have apart : ¬ m.heap.SameSpot 0 (.text (Text.of "2")) (.int 0) := by
    rintro ⟨index | hashed | name, ⟨found, content⟩, also, _⟩
    · cases also
      exact absurd found (by decide)
    · obtain ⟨_, _, content⟩ := content
      cases content
    · cases also
  have done : ((Code.store 0 (.slot 0) (.slot 1) (.slot 2)).run host frame).Leads m (fun _ _ => True)
      fun _ _ => False := trivial
  refine ⟨settable, apart, ((Code.store_reads_back host frame m 0 rfl rfl rfl settable).and done).mono ?_ ?_⟩
  · rintro returned after ⟨⟨same, again, others, grown⟩, -⟩
    obtain ⟨index, filled, found, _, _, length⟩ := grown _ rfl
    obtain rfl : index = 2 := by
      have read : (Value.text (Text.of "2")).position? = .ok (some 2) := by decide
      rw [read] at found
      exact Int.ofNat_inj.mp (Option.some.inj (Except.ok.inj found)).symm
    exact ⟨same, again, others _ apart fun _ _ => nofun, length⟩
  · rintro failure after ⟨_, impossible⟩
    exact impossible

end GuardedExpr

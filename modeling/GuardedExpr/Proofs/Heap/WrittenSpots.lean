import GuardedExpr.Proofs.Heap.HeapContainment

/-!
Where containers keep values. A write changes the one spot that its key names in the container; so an empty
object that is put where a member was false, or where there was none, takes the place of nothing that is true.
-/

namespace GuardedExpr

/-- Where a container keeps a value: at a position of an array, under a key of a mapping, or under the name of
an attribute. -/
inductive Spot where
  | position (index : Nat)
  | entry (key : Key)
  | field (name : Text)

def Cell.held? (cell : Cell) : Spot → Option Value
  | .position index =>
    match cell with
    | .list items | .tuple items => items[index]?
    | _ => none
  | .entry key =>
    match cell with
    | .mapping _ entries => entries.find? key
    | _ => none
  | .field name => (Heap.fields? cell).bind (Table.lookup name)

theorem Value.isTruthy_eq_false_iff {h : Heap} {v : Value} : h.isTruthy v = .ok false ↔ v.truth = false := by
  constructor
  · intro asked
    exact (Heap.truth_of_isTruthy asked).symm
  · intro falsy
    cases v with
    | ref r => cases falsy
    | primitive p => cases falsy
    | constructor c => cases falsy
    | method m => cases falsy
    | derived cls scalar => cases scalar <;> exact congrArg Except.ok falsy
    | _ => exact congrArg Except.ok falsy

namespace Heap

variable {h after : Heap} {r s : Ref} {spot other : Spot} {container key value v member made : Value} {name : Text}

theorem cell_alloc (h : Heap) (c : Cell) (r : Ref) :
    (r = h.size ∧ (h.alloc c).2.cell r = c) ∨ (h.alloc c).2.cell r = h.cell r := by
  rcases Nat.lt_trichotomy r h.size with inside | rfl | outside
  · exact .inr (cell_alloc_old h c inside)
  · exact .inl ⟨rfl, cell_alloc_new h c⟩
  · have beyond : (h.alloc c).2.size ≤ r := by
      rw [size_alloc]
      omega
    rw [cell_outside _ beyond, cell_outside _ (Nat.le_of_lt outside)]
    exact .inr rfl

private theorem mapM_of_mapM {items : List Value} {keys : List Key} {f g : Value → Option Key}
    (each : ∀ item key, f item = some key → g item = some key) (found : items.mapM f = some keys) :
    items.mapM g = some keys := by
  induction items generalizing keys with
  | nil => exact found
  | cons item rest ih =>
    simp only [List.mapM_cons, Option.bind_eq_bind, Option.bind_eq_some_iff, Option.pure_def] at found ⊢
    obtain ⟨first, head, others, tail, same⟩ := found
    exact ⟨first, each item first head, others, ih tail, same⟩

def Names (h : Heap) (r : Ref) (key : Value) : Spot → Prop
  | .position index => key.position? = .ok (some (index : Int)) ∧ ∃ items, h.cell r = .list items
  | .entry hashed => h.key? key = some hashed ∧ ∃ kind entries, h.cell r = .mapping kind entries
  | .field name => key.plain = .text name ∧ (fields? (h.cell r)).isSome

theorem inside_of_held (held : (h.cell r).held? spot = some v) : r < h.size := by
  by_contra outside
  rw [h.cell_outside (Nat.le_of_not_lt outside)] at held
  cases spot <;> cases held

theorem held_of_put {c : Cell} (held : (h.cell s).held? other = some v)
    (same : s = r → c.held? other = some v) : ((h.put r c).cell s).held? other = some v := by
  by_cases here : s = r
  · subst here
    rw [cell_put_same h c (inside_of_held held)]
    exact same rfl
  · rwa [cell_put_other h c here]

private theorem setAttribute_eq_some (written : h.setAttribute? container name value = some after) :
    ∃ r c fields, container = .ref r ∧ fields? (h.cell r) = some fields ∧
      fields? c = some (Table.insert name value fields) ∧ after = h.put r c := by
  cases container with
  | ref r =>
    simp only [setAttribute?] at written
    split at written <;> cases written
    all_goals
      rename_i content
      exact ⟨r, _, _, rfl, by rw [content]; rfl, rfl, rfl⟩
  | _ => cases written

theorem setNamed_eq_ok (written : h.setNamed container key value = .ok after) :
    ∃ name, key.plain = .text name ∧ h.setAttribute? container name value = some after := by
  unfold setNamed at written
  rw [bind_eq_ok] at written
  obtain ⟨kind, -, written⟩ := written
  dsimp only at written
  split at written
  · cases written
  · split at written
    · next name spelled =>
      refine ⟨name, spelled, ?_⟩
      cases done : h.setAttribute? container name value with
      | none =>
        rw [done] at written
        cases written
      | some made =>
        rw [done] at written
        exact congrArg some (Except.ok.inj written)
    · cases written

private theorem held_of_fields {c : Cell} {fields : Fields} (content : fields? c = some fields)
    (held : c.held? other = some v) : ∃ name, other = .field name ∧ Table.lookup name fields = some v := by
  cases other with
  | field name =>
    rw [Cell.held?, content] at held
    exact ⟨name, rfl, held⟩
  | _ => cases c <;> first | cases held | cases content

theorem exists_names_of_setMember (written : h.setMember container key value = .ok after) :
    ∃ r spot, container = .ref r ∧ h.Names r key spot ∧
      ∀ s other v, (h.cell s).held? other = some v →
        (s = r ∧ other = spot) ∨ (after.cell s).held? other = some v := by
  have named (written : h.setNamed container key value = .ok after) :
      ∃ r spot, container = .ref r ∧ h.Names r key spot ∧
        ∀ s other v, (h.cell s).held? other = some v →
          (s = r ∧ other = spot) ∨ (after.cell s).held? other = some v := by
    obtain ⟨name, spelled, done⟩ := setNamed_eq_ok written
    obtain ⟨r, c, fields, rfl, before, new, rfl⟩ := setAttribute_eq_some done
    refine ⟨r, .field name, rfl, ⟨spelled, by rw [before]; rfl⟩, fun s other v held => ?_⟩
    by_cases here : s = r ∧ other = .field name
    · exact .inl here
    · refine .inr (held_of_put held fun same => ?_)
      subst same
      obtain ⟨found, rfl, kept⟩ := held_of_fields before held
      have differ : found ≠ name := fun equal => here ⟨rfl, congrArg Spot.field equal⟩
      rw [Cell.held?, new, Option.bind_some, Table.lookup_insert_other value fields differ, kept]
  cases container with
  | ref r =>
    by_cases writable : (h.cell r).isWritable
    · rcases setMember_cases writable written with
        ⟨kind, entries, hashed, content, found, rfl⟩ | ⟨items, position, content, found, rfl⟩
      · refine ⟨r, .entry hashed, rfl, ⟨found, kind, entries, content⟩, fun s other v held => ?_⟩
        by_cases here : s = r ∧ other = .entry hashed
        · exact .inl here
        · refine .inr (held_of_put held fun same => ?_)
          subst same
          rw [content] at held
          cases other with
          | entry k =>
            have differ : k ≠ hashed := fun equal => here ⟨rfl, congrArg Spot.entry equal⟩
            rwa [Cell.held?, Entries.find?, Entries.set, Table.lookup_alter_other _ _ differ]
          | _ => cases held
      · refine ⟨r, .position position, rfl, ⟨found, items, content⟩, fun s other v held => ?_⟩
        by_cases here : s = r ∧ other = .position position
        · exact .inl here
        · refine .inr (held_of_put held fun same => ?_)
          subst same
          rw [content] at held
          cases other with
          | position index =>
            have differ : position ≠ index := fun equal => here ⟨rfl, congrArg Spot.position equal.symm⟩
            have bound := (List.getElem?_eq_some_iff.mp held).1
            rw [Cell.held?, writePosition, List.getElem?_set_ne differ, List.getElem?_append_left bound]
            exact held
          | _ => cases held
    · apply named
      simp only [setMember] at written
      split at written
      · exact written
      · next kind _ readOnly content =>
        rw [content] at writable
        exact absurd (by cases kind <;> first | rfl | exact absurd rfl readOnly) writable
      · next content =>
        rw [content] at writable
        exact absurd rfl writable
      · exact written
  | _ => exact named written

theorem getMember_of_list {items : List Value} (content : h.cell r = .list items) :
    h.getMember (.ref r) key = h.positionedMember (.ref r) items id key := by
  simp [getMember, entries?, items?, content]

theorem getMember_of_mapping {kind : MappingKind} {entries : Entries} (content : h.cell r = .mapping kind entries) :
    h.getMember (.ref r) key = .ok (((h.key? key).bind entries.find?).getD .null) := by
  simp [getMember, entries?, content]

private theorem getMember_of_held (names : h.Names r key spot)
    (held : (h.cell r).held? spot = some v) :
    h.getMember (.ref r) key = .ok v := by
  cases spot with
  | position index =>
    obtain ⟨found, items, content⟩ := names
    rw [content] at held
    have item : items[index]? = some v := held
    have bound : ¬ (index : Int) < 0 := by omega
    simp [getMember, entries?, items?, content, positionedMember, found, itemAt, item, bind, Except.bind, pure,
      Except.pure]
  | entry hashed =>
    obtain ⟨found, kind, entries, content⟩ := names
    rw [content] at held
    have entry : entries.find? hashed = some v := held
    simp [getMember, entries?, content, found, entry]
  | field name =>
    obtain ⟨spelled, some⟩ := names
    obtain ⟨fields, content⟩ := Option.isSome_iff_exists.mp some
    have found : (fields? (h.cell r)).bind (Table.lookup name) = .some v := held
    have read : h.attribute? (.ref r) name = .some v := by
      simp only [attribute?, found]
    cases shape : h.cell r <;> rw [shape] at content <;> cases content <;>
      simp [getMember, entries?, items?, shape, namedMember, spelled, read]

/-- Where something is kept under a name that is no position, the container has that member. -/
theorem hasMember_of_held (names : h.Names r (.text name) spot) (word : (Value.text name).position? = .ok none)
    (held : (h.cell r).held? spot = some v) {answer : Bool} (asked : h.hasMember (.ref r) name = .ok answer) :
    answer = true := by
  rw [hasMember, bind_eq_ok] at asked
  obtain ⟨truth, whole, asked⟩ := asked
  obtain rfl : truth = true := truth_of_isTruthy whole
  cases spot with
  | position index =>
    obtain ⟨found, -⟩ := names
    rw [word] at found
    cases found
  | entry hashed =>
    obtain ⟨found, kind, entries, content⟩ := names
    rw [content] at held
    cases found
    have entry : (Table.lookup [KeyPart.text name] entries).map Prod.snd = some v := held
    obtain ⟨pair, present, -⟩ := Option.map_eq_some_iff.mp entry
    simp only [entries?, content, present] at asked
    exact (Except.ok.inj asked).symm
  | field word =>
    obtain ⟨equal, some⟩ := names
    cases equal
    obtain ⟨fields, content⟩ := Option.isSome_iff_exists.mp some
    have found : (fields? (h.cell r)).bind (Table.lookup name) = .some v := held
    have read : h.attribute? (.ref r) name = .some v := by
      simp only [attribute?, found]
    have none : h.entries? (.ref r) = .none := by
      cases shape : h.cell r <;> rw [shape] at content <;> cases content <;> simp [entries?, shape]
    simp only [none, read] at asked
    exact (Except.ok.inj asked).symm

private theorem keyWithin_of_alloc {kind : MappingKind} {entries : Entries} {depth : Nat}
    {hashed : Key}
    (found : (h.alloc (.mapping kind entries)).2.keyWithin depth v = some hashed) :
    h.keyWithin depth v = some hashed := by
  induction depth generalizing v hashed with
  | zero =>
    cases v with
    | ref r =>
      rcases cell_alloc h (.mapping kind entries) r with ⟨-, new⟩ | same
      · simp only [keyWithin, new] at found
        cases found
      · simpa only [keyWithin, same] using found
    | _ => exact found
  | succ depth ih =>
    cases v with
    | ref r =>
      rcases cell_alloc h (.mapping kind entries) r with ⟨-, new⟩ | same
      · simp only [keyWithin, new] at found
        cases found
      · simp only [keyWithin, same] at found ⊢
        cases content : h.cell r with
        | tuple items =>
          simp only [content, Option.bind_eq_bind, Option.bind_eq_some_iff] at found ⊢
          obtain ⟨keys, each, whole⟩ := found
          exact ⟨keys, mapM_of_mapM (fun item key => ih) each, whole⟩
        | _ => simpa only [content] using found
    | _ => exact found

private theorem key?_of_alloc {kind : MappingKind} {entries : Entries} {hashed : Key}
    (found : (h.alloc (.mapping kind entries)).2.key? v = some hashed) : h.key? v = some hashed := by
  cases v with
  | ref r => exact keyWithin_of_alloc found
  | _ => exact found

def Spares (h after : Heap) : Prop :=
  ∀ r spot v, (h.cell r).held? spot = some v → h.isTruthy v ≠ .ok false → (after.cell r).held? spot = some v

theorem spares_refl (h : Heap) : h.Spares h :=
  fun _ _ _ held _ => held

theorem spares_alloc (h : Heap) (c : Cell) : h.Spares (h.alloc c).2 := by
  intro r spot v held _
  rwa [cell_alloc_old h c (inside_of_held held)]

/-- A new empty object takes the place of nothing but what was at the spot that its key names. -/
theorem spares_of_created (written : (h.alloc (.mapping .plain [])).2.setMember container key made = .ok after)
    (gap : ∀ r spot v, container = .ref r → h.Names r key spot → (h.cell r).held? spot = some v →
      h.isTruthy v = .ok false) : h.Spares after := by
  intro r spot v held present
  obtain ⟨s, place, rfl, names, others⟩ := exists_names_of_setMember written
  have same := h.cell_alloc_old (.mapping .plain []) (inside_of_held held)
  rcases others r spot v (by rwa [same]) with ⟨rfl, rfl⟩ | kept
  · -- The key names the same spot before the object is made.
    refine absurd (gap r spot v rfl ?_ held) present
    cases spot with
    | position index => exact ⟨names.1, same ▸ names.2⟩
    | entry hashed => exact ⟨key?_of_alloc names.1, same ▸ names.2⟩
    | field name => exact ⟨names.1, same ▸ names.2⟩
  · exact kept

/-- Where a member is false, nothing that is true is lost to an empty object. -/
theorem spares_of_falsy (present : h.getMember container key = .ok member) (falsy : h.isTruthy member = .ok false)
    (written : (h.alloc (.mapping .plain [])).2.setMember container key made = .ok after) : h.Spares after := by
  refine spares_of_created written ?_
  rintro r spot v rfl names held
  cases (getMember_of_held names held).symm.trans present
  exact falsy

/-- Where a container has no member under a name that is no position, nothing is lost to an empty object. -/
theorem spares_of_absent (absent : h.hasMember container name = .ok false)
    (word : (Value.text name).position? = .ok none)
    (written : (h.alloc (.mapping .plain [])).2.setMember container (.text name) made = .ok after) :
    h.Spares after := by
  refine spares_of_created written ?_
  rintro r spot v rfl names held
  cases hasMember_of_held names word held absent

end Heap

end GuardedExpr

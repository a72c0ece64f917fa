import GuardedExpr.Proofs.Heap.ClosedWrites
import GuardedExpr.Proofs.Heap.DirectKinds

/-!
What containers hold. Where no container is inside itself, every question about a value has an end; and that
stays so when a value is put into a container that it does not lead to.
-/

namespace GuardedExpr

def Cell.contents : Cell → List Value
  | .list items => items
  | .tuple items => items
  | .mapping _ entries => entries.map fun entry => entry.2.2
  | .object _ fields => fields.map Prod.snd
  | .function _ _ fields => fields.map Prod.snd
  | .userClass fields => fields.map Prod.snd
  | .userInstance cls fields => .ref cls :: fields.map Prod.snd
  | .module fields => fields.map Prod.snd

/-- Whether members of a cell can be written as items or entries: it is a list, or a mapping that is not
read-only. -/
def Cell.isWritable : Cell → Bool
  | .list _ => true
  | .mapping kind _ => kind != .readOnly
  | _ => false

def Value.isLater (r : Ref) : Value → Bool
  | .ref s => r < s
  | _ => true

namespace Heap

variable {h after : Heap} {r s t : Ref} {v value key : Value} {name : Text}

def Holds (h : Heap) (r s : Ref) : Prop :=
  .ref s ∈ (h.cell r).contents

instance (h : Heap) (r s : Ref) : Decidable (h.Holds r s) :=
  inferInstanceAs (Decidable (_ ∈ _))

def Reaches (h : Heap) (v : Value) (r : Ref) : Prop :=
  ∃ s, v = .ref s ∧ Relation.ReflTransGen h.Holds s r

def HasNoCycle (h : Heap) : Prop :=
  ∀ r, ¬ Relation.TransGen h.Holds r r

theorem inside_of_holds (holds : h.Holds r s) : r < h.size := by
  by_contra outside
  rw [Holds, h.cell_outside (Nat.le_of_not_lt outside)] at holds
  cases holds

/-- There is no cycle where every container holds only later ones. -/
theorem hasNoCycle_of_later (later : ∀ r < h.size, (h.cell r).contents.all (·.isLater r)) : h.HasNoCycle := by
  intro r cycle
  have upward (s : Ref) (path : Relation.TransGen h.Holds r s) : r < s := by
    induction path with
    | single holds =>
      exact of_decide_eq_true (List.all_eq_true.mp (later _ (inside_of_holds holds)) _ holds)
    | tail _ holds ih =>
      exact ih.trans (of_decide_eq_true (List.all_eq_true.mp (later _ (inside_of_holds holds)) _ holds))
  exact absurd (upward r cycle) (Nat.lt_irrefl _)

theorem IsClosed.contents (closed : h.IsClosed) (member : v ∈ (h.cell r).contents) : v.isBelow h.size := by
  have below := closed.cell r
  have ofFields {fields : Fields} (all : fields.areBelow h.size) (member : v ∈ fields.map Prod.snd) :
      v.isBelow h.size := by
    obtain ⟨field, present, rfl⟩ := List.mem_map.mp member
    exact List.all_eq_true.mp all field present
  cases content : h.cell r <;> rw [content] at below member
  case list items => exact List.all_eq_true.mp below v member
  case tuple items => exact List.all_eq_true.mp below v member
  case mapping kind entries =>
    obtain ⟨entry, present, rfl⟩ := List.mem_map.mp member
    exact (Bool.and_eq_true_iff.mp (List.all_eq_true.mp below entry present)).2
  case userInstance cls fields =>
    obtain ⟨class_, others⟩ := Bool.and_eq_true_iff.mp below
    rcases List.mem_cons.mp member with rfl | member
    · exact class_
    · exact ofFields others member
  all_goals exact ofFields below member

theorem Reaches.inside (reaches : h.Reaches v r) (closed : h.IsClosed) (below : v.isBelow h.size) :
    r < h.size := by
  obtain ⟨s, rfl, path⟩ := reaches
  induction path with
  | refl => simpa [Value.isBelow] using below
  | tail _ holds _ => simpa [Value.isBelow] using closed.contents holds

private theorem contents_of_entries {entries : Entries} (found : h.entries? v = some entries) :
    ∃ r, v = .ref r ∧ (h.cell r).contents = entries.map fun entry => entry.2.2 := by
  cases v with
  | ref r =>
    simp only [entries?] at found
    split at found <;> cases found
    next content => exact ⟨r, rfl, by rw [content]; rfl⟩
  | _ => cases found

private theorem contents_of_items {items : List Value} (found : h.items? v = some items) :
    ∃ r, v = .ref r ∧ (h.cell r).contents = items := by
  cases v with
  | ref r =>
    simp only [items?] at found
    split at found <;> cases found
    all_goals next content => exact ⟨r, rfl, by rw [content]; rfl⟩
  | _ => cases found

private theorem mem_contents_of_entries {kind : MappingKind} {entries : Entries}
    (content : h.cell r = .mapping kind entries)
    {hashed : Key} {entry : Value × Value} (found : Table.lookup hashed entries = some entry) :
    entry.2 ∈ (h.cell r).contents := by
  rw [content]
  exact List.mem_map_of_mem (Table.mem_of_lookup found)

theorem mem_contents_of_fields {fields : Fields} (table : fields? (h.cell r) = some fields)
    (found : Table.lookup name fields = some v) : v ∈ (h.cell r).contents := by
  have present : v ∈ fields.map Prod.snd := List.mem_map_of_mem (Table.mem_of_lookup found)
  cases content : h.cell r <;> rw [content] at table <;> cases table
  case userInstance => exact List.mem_cons_of_mem _ present
  all_goals exact present

theorem path_of_own (member : h.own (.ref r) name = .ref s) : Relation.TransGen h.Holds r s := by
  unfold own at member
  cases entries : h.entries? (.ref r) with
  | some found =>
    rw [entries] at member
    simp only [entries?] at entries
    split at entries
    · next kind all content =>
      cases entries
      cases looked : Table.lookup [KeyPart.text name] found with
      | none => simp [looked] at member
      | some entry =>
        simp only [looked, Option.map_some, Option.getD_some] at member
        exact .single (show Value.ref s ∈ _ from member ▸ mem_contents_of_entries content looked)
    · cases entries
  | none =>
    simp only [entries, attribute?] at member
    cases found : (fields? (h.cell r)).bind (Table.lookup name) with
    | some held =>
      obtain ⟨fields, table, looked⟩ := Option.bind_eq_some_iff.mp found
      simp only [found, Option.getD_some] at member
      exact .single (show Value.ref s ∈ _ from member ▸ mem_contents_of_fields table looked)
    | none =>
      simp only [found, inherited?] at member
      split at member
      · split at member <;> cases member
      · split at member <;> cases member
      · split at member <;> cases member
      · next cls fields content =>
        split at member
        · next shared ofClass =>
          cases looked : Table.lookup name shared with
          | none => simp [looked] at member
          | some held =>
            simp only [looked, Option.getD_some] at member
            have first : h.Holds r cls := by
              rw [Holds, content]
              exact List.mem_cons_self
            have table : fields? (h.cell cls) = some shared := by rw [ofClass]; rfl
            exact .tail (.single first)
              (show Value.ref s ∈ _ from member ▸ mem_contents_of_fields table looked)
        · cases member
      · cases member

theorem HasNoCycle.not_isEndless (acyclic : h.HasNoCycle) (v : Value) : ¬ h.IsEndless v := by
  rintro ⟨w, -, cycle⟩
  have path (x y : Value) (asked : Relation.TransGen h.Asks x y) :
      ∀ r s, x = .ref r → y = .ref s → Relation.TransGen h.Holds r s := by
    induction asked with
    | single asks =>
      rintro r s rfl rfl
      obtain ⟨-, name, same⟩ := unmarked_of_asks asks
      exact path_of_own same.symm
    | tail _ asks ih =>
      rintro r s same rfl
      obtain ⟨t, rfl, -⟩ := inside_of_asks asks nofun
      obtain ⟨-, name, member⟩ := unmarked_of_asks asks
      exact (ih r t same rfl).trans (path_of_own member.symm)
  cases w with
  | ref r => exact acyclic r (path _ _ cycle r r rfl rfl)
  | _ => exact not_isEndless_of_acc (acc_of_no_container (by simp)) ⟨_, .refl, cycle⟩

/-- The guard of objects accepts or refuses every value where no container is inside itself. -/
theorem HasNoCycle.object (acyclic : h.HasNoCycle) (v : Value) :
    Guard.object h v = .ok () ∨ ∃ reason, Guard.object h v = .error (.disallowedObject reason) := by
  obtain ⟨kind, decided⟩ := Option.isSome_iff_exists.mp (kind?_isSome_iff.mpr (acyclic.not_isEndless v))
  unfold Guard.object classify
  rw [decided]
  cases refusal : Guard.objectRefusal? kind with
  | none => exact .inl (by simp [ended, bind, Except.bind, refusal]; rfl)
  | some reason => exact .inr ⟨reason, by simp [ended, bind, Except.bind, refusal]; rfl⟩

private theorem holds_alloc_iff : (h.alloc (.mapping .plain [])).2.Holds r s ↔ h.Holds r s := by
  rcases lt_trichotomy r h.size with inside | rfl | outside
  · rw [Holds, Holds, h.cell_alloc_old _ inside]
  · have new : (h.alloc (.mapping .plain [])).2.cell h.size = .mapping .plain [] := h.cell_alloc_new _
    rw [Holds, Holds, new, h.cell_outside (Nat.le_refl _)]
    rfl
  · have beyond : (h.alloc (.mapping .plain [])).2.size ≤ r := by
      rw [size_alloc]
      exact outside
    rw [Holds, Holds, cell_outside _ beyond, h.cell_outside outside.le]

theorem holds_alloc : (h.alloc (.mapping .plain [])).2.Holds = h.Holds := by
  funext r s
  exact propext holds_alloc_iff

theorem HasNoCycle.alloc (acyclic : h.HasNoCycle) : (h.alloc (.mapping .plain [])).2.HasNoCycle := by
  rw [HasNoCycle, holds_alloc]
  exact acyclic

theorem reaches_alloc_iff : (h.alloc (.mapping .plain [])).2.Reaches v r ↔ h.Reaches v r := by
  rw [Reaches, Reaches, holds_alloc]

structure Puts (h : Heap) (r : Ref) (value : Value) (after : Heap) : Prop where
  size : after.size = h.size
  others : ∀ s, s ≠ r → after.cell s = h.cell s
  before : (h.cell r).isWritable
  writable : (after.cell r).isWritable
  holds : ∀ s, after.Holds r s → h.Holds r s ∨ value = .ref s

namespace Puts

theorem holds_cases (puts : h.Puts r value after) (holds : after.Holds s t) :
    h.Holds s t ∨ (s = r ∧ value = .ref t) := by
  by_cases same : s = r
  · subst same
    exact (puts.holds t holds).imp id fun new => ⟨rfl, new⟩
  · rw [Holds, puts.others s same] at holds
    exact .inl holds

/-- A way to a container leads through what was put somewhere, or was there before. -/
theorem path_cases (puts : h.Puts r value after) (path : Relation.ReflTransGen after.Holds s t) :
    Relation.ReflTransGen h.Holds s t ∨ (Relation.ReflTransGen h.Holds s r ∧ h.Reaches value t) := by
  induction path with
  | refl => exact .inl .refl
  | tail _ holds ih =>
    rcases puts.holds_cases holds with old | ⟨rfl, new⟩
    · rcases ih with path | ⟨first, other, same, path⟩
      · exact .inl (path.tail old)
      · exact .inr ⟨first, other, same, path.tail old⟩
    · refine .inr ⟨?_, _, new, .refl⟩
      rcases ih with path | ⟨first, -⟩
      · exact path
      · exact first

/-- A value that does not lead to the container can be put into it without closing a cycle. -/
theorem hasNoCycle (puts : h.Puts r value after) (acyclic : h.HasNoCycle) (apart : ¬ h.Reaches value r) :
    after.HasNoCycle := by
  intro s cycle
  obtain ⟨t, holds, rest⟩ := Relation.TransGen.head'_iff.mp cycle
  rcases puts.holds_cases holds with old | ⟨rfl, new⟩
  · rcases puts.path_cases rest with path | ⟨first, other, same, path⟩
    · exact acyclic s (.head' old path)
    · exact apart ⟨other, same, (path.tail old).trans first⟩
  · rcases puts.path_cases rest with path | ⟨-, back⟩
    · exact apart ⟨t, new, path⟩
    · exact apart back

/-- What a value does not lead to it does not lead to after it was put somewhere else. -/
theorem reaches (puts : h.Puts r value after) {w : Value} (apart : ¬ h.Reaches w r) (path : after.Reaches w t) :
    h.Reaches w t := by
  obtain ⟨s, rfl, path⟩ := path
  rcases puts.path_cases path with old | ⟨first, -⟩
  · exact ⟨s, rfl, old⟩
  · exact absurd ⟨s, rfl, first⟩ apart

end Puts

theorem setItem_eq_ok {items : List Value} (written : h.setItem r items key value = .ok after) :
    ∃ position : Nat, key.position? = .ok (some (position : Int)) ∧
      after = h.put r (.list (writePosition items position value)) := by
  rw [setItem, bind_eq_ok] at written
  obtain ⟨position, found, written⟩ := written
  cases position with
  | none => cases written
  | some position =>
    simp only at written
    split at written
    · cases written
    · next bound =>
      refine ⟨position.toNat, ?_, ?_⟩
      · rw [found, Int.toNat_of_nonneg (by omega)]
      · split at written
        · cases written
        · split at written
          · cases written
          · exact (Except.ok.inj written).symm

theorem setMember_cases (writable : (h.cell r).isWritable) (written : h.setMember (.ref r) key value = .ok after) :
    (∃ kind entries hashed, h.cell r = .mapping kind entries ∧ h.key? key = some hashed ∧
      after = h.put r (.mapping kind (entries.set hashed key value))) ∨
    (∃ (items : List Value) (position : Nat), h.cell r = .list items ∧
      key.position? = .ok (some (position : Int)) ∧
        after = h.put r (.list (writePosition items position value))) := by
  simp only [setMember] at written
  split at written
  · next entries content =>
    rw [content] at writable
    cases writable
  · next kind entries _ content =>
    split at written
    · next hashed found => exact .inl ⟨kind, entries, hashed, content, found, (Except.ok.inj written).symm⟩
    · cases written
  · next items content =>
    obtain ⟨position, found, same⟩ := setItem_eq_ok written
    exact .inr ⟨items, position, content, found, same⟩
  · next noMapping noList =>
    cases content : h.cell r <;> rw [content] at writable
    case list items => exact absurd content (noList items)
    case mapping kind entries => exact absurd content (noMapping kind entries)
    all_goals cases writable

private theorem mem_set {entries : Entries} {hashed : Key} {shown : Value}
    (member : v ∈ (entries.set hashed shown value).map fun entry => entry.2.2) :
    v ∈ (entries.map fun entry => entry.2.2) ∨ v = value := by
  induction entries with
  | nil => exact .inr (by simpa [Entries.set, Table.alter] using member)
  | cons entry rest ih =>
    simp only [Entries.set, Table.alter] at member
    split at member
    · rcases List.mem_cons.mp member with rfl | old
      · exact .inr rfl
      · exact .inl (List.mem_cons_of_mem _ old)
    · rcases List.mem_cons.mp member with rfl | later
      · exact .inl List.mem_cons_self
      · exact (ih later).imp (List.mem_cons_of_mem _) id

theorem mem_writePosition {items : List Value} {position : Nat} (member : v ∈ writePosition items position value) :
    v ∈ items ∨ v = value ∨ v = .null := by
  rcases List.mem_or_eq_of_mem_set member with old | new
  · rcases List.mem_append.mp old with earlier | padded
    · exact .inl earlier
    · exact .inr (.inr (List.mem_replicate.mp padded).2)
  · exact .inr (.inl new)

theorem inside_of_isWritable (writable : (h.cell r).isWritable) : r < h.size := by
  by_contra outside
  rw [h.cell_outside (Nat.le_of_not_lt outside)] at writable
  cases writable

theorem puts_of_put {c : Cell} (before : (h.cell r).isWritable) (writable : c.isWritable)
    (contents : ∀ w ∈ c.contents, w ∈ (h.cell r).contents ∨ w = value ∨ w = .null) : h.Puts r value (h.put r c) := by
  have new : (h.put r c).cell r = c := h.cell_put_same c (inside_of_isWritable before)
  refine ⟨size_put h r c, fun s different => cell_put_other h c different, before, by rwa [new], ?_⟩
  intro s holds
  rw [Holds, new] at holds
  rcases contents _ holds with old | same | null
  · exact .inl old
  · exact .inr same.symm
  · cases null

theorem puts_of_setMember (writable : (h.cell r).isWritable)
    (written : h.setMember (.ref r) key value = .ok after) : h.Puts r value after := by
  rcases setMember_cases writable written with
    ⟨kind, entries, hashed, content, _, rfl⟩ | ⟨items, position, content, _, rfl⟩
  · refine puts_of_put writable (by rwa [content] at writable) fun w member => ?_
    rw [content]
    exact (mem_set member).imp id .inl
  · refine puts_of_put writable rfl fun w member => ?_
    rw [content]
    exact mem_writePosition member

theorem getMember_of_setMember (scalar : key.isScalar) (writable : (h.cell r).isWritable)
    (written : h.setMember (.ref r) key value = .ok after) : after.getMember (.ref r) key = .ok value := by
  have inside := inside_of_isWritable writable
  obtain ⟨stable, every, -⟩ := key?_of_isScalar scalar
  rcases setMember_cases writable written with
    ⟨kind, entries, hashed, content, found, rfl⟩ | ⟨items, position, content, found, rfl⟩
  · have same : hashed = stable := Option.some.inj (found.symm.trans (every h))
    have lookup : (entries.set hashed key value).find? hashed = some value := by
      rw [Entries.find?, Entries.set, Table.lookup_alter_same]
      cases Table.lookup hashed entries <;> rfl
    simp [getMember, entries?, cell_put_same h _ inside, every, ← same, lookup]
  · have length : position < (items ++ List.replicate (position + 1 - items.length) Value.null).length := by
      rw [List.length_append, List.length_replicate]
      omega
    have item : (writePosition items position value)[position]? = some value := by
      rw [writePosition, List.getElem?_set_self length]
    have bound : ¬ (position : Int) < 0 := by omega
    simp [getMember, entries?, items?, cell_put_same h _ inside, positionedMember, found, itemAt, item, bind,
      Except.bind, pure, Except.pure]

theorem getMember_of_cell (scalar : key.isScalar) (writable : (h.cell r).isWritable)
    (same : after.cell r = h.cell r) : after.getMember (.ref r) key = h.getMember (.ref r) key := by
  obtain ⟨hashed, every, -⟩ := key?_of_isScalar scalar
  cases content : h.cell r <;> rw [content] at writable same
  case mapping kind entries => simp [getMember, entries?, content, same, every]
  case list items =>
    have named (name : Text) : after.attribute? (.ref r) name = h.attribute? (.ref r) name := by
      simp [attribute?, inherited?, content, same]
    cases key <;> simp [getMember, entries?, items?, content, same, positionedMember, namedMember, named]
  all_goals cases writable

theorem holds_of_getMember (writable : (h.cell r).isWritable) (found : h.getMember (.ref r) key = .ok (.ref s)) :
    h.Holds r s := by
  have reads := found_of_getMember found
  generalize same : Value.ref s = value at reads
  cases reads with
  | absent | length | character => cases same
  | entry mapping member =>
    obtain ⟨_, ⟨⟩, contents⟩ := contents_of_entries mapping
    rw [Holds, contents, same]
    exact List.mem_map_of_mem member
  | item list member =>
    obtain ⟨_, ⟨⟩, contents⟩ := contents_of_items list
    rw [Holds, contents, same]
    exact member
  | own held =>
    -- The attributes of lists are methods, and mappings have none.
    subst same
    cases content : h.cell r <;> rw [content] at writable
    case list items =>
      simp only [attribute?, fields?, inherited?, content, Option.bind_none] at held
      split at held <;> cases held
    case mapping kind entries =>
      simp only [attribute?, fields?, inherited?, content, Option.bind_none] at held
      cases held
    all_goals cases writable

def owns (h : Heap) (v : Value) (name : Text) : Bool :=
  match h.entries? v with
  | some entries => (Table.lookup [KeyPart.text name] entries).isSome
  | none => (h.attribute? v name).isSome

theorem hasMember_of_not_isEndless (ends : ¬ h.IsEndless v) (name : Text) :
    h.hasMember v name = .ok (v.truth && h.owns v name) := by
  rw [hasMember, isTruthy_of_not_isEndless ends]
  cases v.truth with
  | false => rfl
  | true =>
    simp only [bind, Except.bind, owns, Bool.true_and]
    cases h.entries? v <;> rfl

theorem lookup_of_isWritable {c : Cell} (writable : c.isWritable) (name : Text) :
    (match c with | .userClass fields => Table.lookup name fields | _ => none) = none := by
  cases c <;> first | rfl | cases writable

section Apart

variable (puts : h.Puts r value after) (apart : v ≠ .ref r)

include puts apart

theorem Puts.cell {s : Ref} (same : v = .ref s) : after.cell s = h.cell s :=
  puts.others s fun equal => apart (equal ▸ same)

theorem Puts.entries? : after.entries? v = h.entries? v := by
  cases v with
  | ref s => simp only [Heap.entries?, puts.cell apart rfl]
  | _ => rfl

theorem Puts.attribute? (name : Text) : after.attribute? v name = h.attribute? v name := by
  cases v with
  | ref s =>
    have same : after.cell s = h.cell s := puts.cell apart rfl
    have inherited : after.inherited? s name = h.inherited? s name := by
      simp only [inherited?, same]
      split
      · rfl
      · rfl
      · rfl
      · next cls fields content =>
        by_cases class_ : cls = r
        · subst class_
          exact (lookup_of_isWritable puts.writable name).trans (lookup_of_isWritable puts.before name).symm
        · rw [puts.others cls class_]
      · rfl
    simp only [Heap.attribute?, same, inherited]
  | _ => rfl

theorem Puts.owns (name : Text) : after.owns v name = h.owns v name := by
  simp only [Heap.owns, puts.entries? apart, puts.attribute? apart]

theorem Puts.own (name : Text) : after.own v name = h.own v name := by
  simp only [Heap.own, puts.entries? apart, puts.attribute? apart]

/-- The kind of a value is told by its own members, so that writing to something else does not change it. -/
theorem Puts.object (before : h.HasNoCycle) (later : after.HasNoCycle) : Guard.object after v = Guard.object h v := by
  have marked : after.markedKind? v = h.markedKind? v := by
    cases v with
    | ref s => simp only [markedKind?, puts.cell apart rfl]
    | constructor c => cases c <;> rfl
    | _ => rfl
  have plain : after.plainKind v = h.plainKind v := by
    cases v with
    | ref s => simp only [plainKind, puts.cell apart rfl]
    | _ => rfl
  simp only [Guard.object, classify, kind?_eq_directKind (before.not_isEndless v),
    kind?_eq_directKind (later.not_isEndless v), directKind, marked, plain, puts.own apart]

end Apart

theorem owns_of_setMember (writable : (h.cell r).isWritable) (written : h.setMember (.ref r) key value = .ok after)
    (present : h.owns (.ref r) name) : after.owns (.ref r) name := by
  have inside := inside_of_isWritable writable
  rcases setMember_cases writable written with
    ⟨kind, entries, hashed, content, _, rfl⟩ | ⟨items, position, content, _, rfl⟩
  · simp only [owns, entries?, content] at present
    simp only [owns, entries?, cell_put_same h _ inside, Entries.set]
    by_cases same : [KeyPart.text name] = hashed
    · rw [same, Table.lookup_alter_same]
      rfl
    · rwa [Table.lookup_alter_other _ _ same]
  · simpa [owns, entries?, attribute?, fields?, inherited?, content, cell_put_same h _ inside] using present

end Heap

end GuardedExpr

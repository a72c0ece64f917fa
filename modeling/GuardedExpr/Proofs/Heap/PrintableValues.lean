import GuardedExpr.Json.Heap
import GuardedExpr.Proofs.Run.RunFaults

/-!
Which values have a JSON text. All have, but for those in whose text a container would stand inside itself, a key has
no name, or a whole number has too many digits.
-/

namespace GuardedExpr

open Relation (ReflTransGen TransGen)

section Lists

variable {α β : Type} {f : α → Except Error β} {items : List α}

private theorem exists_of_mapM_eq_error {failure : Error} (failed : items.mapM f = .error failure) :
    ∃ item ∈ items, f item = .error failure := by
  induction items with
  | nil => cases failed
  | cons item items ih =>
    rw [List.mapM_cons] at failed
    rcases bind_eq_error.mp failed with here | ⟨_, _, rest⟩
    · exact ⟨item, List.mem_cons_self, here⟩
    · rcases bind_eq_error.mp rest with there | ⟨_, _, done⟩
      · obtain ⟨other, member, failed⟩ := ih there
        exact ⟨other, List.mem_cons_of_mem item member, failed⟩
      · cases done

private theorem exists_of_mapM_eq_ok {results : List β} (done : items.mapM f = .ok results) :
    ∀ item ∈ items, ∃ result, f item = .ok result := by
  induction items generalizing results with
  | nil => exact List.forall_mem_nil _
  | cons item items ih =>
    rw [List.mapM_cons, bind_eq_ok] at done
    obtain ⟨result, here, done⟩ := done
    obtain ⟨others, there, _⟩ := bind_eq_ok.mp done
    exact List.forall_mem_cons.mpr ⟨⟨result, here⟩, ih there⟩

end Lists

/-- What a text lists of a cell: items, or values under names. Other containers are shown as a whole. -/
def Cell.listed? : Cell → Option (List Value)
  | .list items | .tuple items => some items
  | .mapping .readOnly _ => none
  | .mapping _ entries => some (entries.map fun entry => entry.2.2)
  | _ => none

private theorem withDigits_eq_error {α : Type} {overlong? : Option Nat} {written : α}
    {failure : Error}
    (failed : Heap.withDigits overlong? written = .error failure) :
    ∃ count, overlong? = some count ∧ failure = .fault (.tooManyDigits count) := by
  cases overlong? with
  | none => cases failed
  | some count =>
    cases failed
    exact ⟨count, rfl, rfl⟩

private theorem withDigits_eq_ok {α : Type} {overlong? : Option Nat} {written result : α}
    (done : Heap.withDigits overlong? written = .ok result) : overlong? = none := by
  cases overlong? with
  | none => rfl
  | some count => cases done

namespace Heap

variable {h : Heap} {v w item : Value} {items : List Value} {r s : Ref} {path : List Ref} {depth : Nat}
  {failure : Error} {json : Json}

def Lists (h : Heap) (r s : Ref) : Prop :=
  ∃ items, (h.cell r).listed? = some items ∧ .ref s ∈ items

inductive Includes (h : Heap) : Value → Value → Prop where
  | self (v : Value) : h.Includes v v
  | inside {r : Ref} {items : List Value} {item v : Value} (listed : (h.cell r).listed? = some items)
    (member : item ∈ items) (includes : h.Includes item v) : h.Includes (.ref r) v

inductive Unprintable (h : Heap) (v : Value) : Error → Prop where
  /-- A container would stand inside itself. -/
  | circular {r : Ref} (includes : h.Includes v (.ref r)) (cycle : TransGen h.Lists r r) :
    h.Unprintable v (.fault .circular)
  /-- A key has no name. -/
  | unnamed {r : Ref} {kind : MappingKind} {entries : Entries} {entry : Key × Value × Value} {failure : Error}
    (includes : h.Includes v (.ref r)) (cell : h.cell r = .mapping kind entries) (writes : kind ≠ .readOnly)
    (member : entry ∈ entries) (fails : memberName entry.2.1 = .error failure) : h.Unprintable v failure
  /-- A whole number has too many digits, by itself or in the display of what is shown as a whole. -/
  | overlong {w : Value} {count : Nat} (includes : h.Includes v w)
    (whole : ∀ r, w = .ref r → (h.cell r).listed? = none) (long : h.overlong? w = some count) :
    h.Unprintable v (.fault (.tooManyDigits count))

theorem Unprintable.inside (listed : (h.cell r).listed? = some items) (member : item ∈ items)
    (unprintable : h.Unprintable item failure) : h.Unprintable (.ref r) failure := by
  cases unprintable with
  | circular includes cycle => exact .circular (.inside listed member includes) cycle
  | unnamed includes cell writes present fails => exact .unnamed (.inside listed member includes) cell writes present fails
  | overlong includes whole long => exact .overlong (.inside listed member includes) whole long

private theorem lists_of_listed (listed : (h.cell r).listed? = some items)
    (member : .ref s ∈ items) : h.Lists r s :=
  ⟨items, listed, member⟩

private theorem inside_of_listed (listed : (h.cell r).listed? = some items) : r < h.size := by
  by_contra outside
  rw [h.cell_outside (Nat.le_of_not_lt outside)] at listed
  cases listed

theorem listed?_cases (listed : (h.cell r).listed? = some items) :
    (h.cell r = .list items ∨ h.cell r = .tuple items) ∨
      ∃ kind entries, h.cell r = .mapping kind entries ∧ kind ≠ .readOnly ∧ items = entries.map fun entry => entry.2.2 := by
  cases content : h.cell r with
  | list | tuple =>
    rw [content] at listed
    cases listed
    simp
  | mapping kind entries =>
    rw [content] at listed
    cases kind <;> cases listed <;> exact .inr ⟨_, entries, rfl, nofun, rfl⟩
  | _ =>
    rw [content] at listed
    cases listed

private theorem listed?_of_mapping {kind : MappingKind} {entries : Entries}
    (cell : h.cell r = .mapping kind entries)
    (writes : kind ≠ .readOnly) : (h.cell r).listed? = some (entries.map fun entry => entry.2.2) := by
  rw [cell]
  cases kind with
  | readOnly => exact absurd rfl writes
  | plain | global => rfl

theorem toJsonWithin_of_items (cell : h.cell r = .list items ∨ h.cell r = .tuple items) :
    h.toJsonWithin (depth + 1) path (.ref r) =
      if path.contains r then .error (.fault .circular)
      else do return .array (← items.mapM (h.toJsonWithin depth (r :: path))) := by
  rcases cell with list | tuple
  · simp only [toJsonWithin, list]
  · simp only [toJsonWithin, tuple]

theorem toJsonWithin_of_entries {kind : MappingKind} {entries : Entries} (cell : h.cell r = .mapping kind entries)
    (writes : kind ≠ .readOnly) :
    h.toJsonWithin (depth + 1) path (.ref r) =
      if path.contains r then .error (.fault .circular)
      else do return .object (← entries.mapM fun entry => do
        return (← memberName entry.2.1, ← h.toJsonWithin depth (r :: path) entry.2.2)) := by
  cases kind with
  | readOnly => exact absurd rfl writes
  | plain | global => simp only [toJsonWithin, cell]

/-- What is shown as a whole has a text if no whole number in its display has too many digits. -/
theorem toJsonWithin_of_whole (path : List Ref) (deep : ∀ r, v = .ref r → depth ≠ 0)
    (whole : ∀ r, v = .ref r → (h.cell r).listed? = none) :
    ∃ json, h.toJsonWithin depth path v = withDigits (h.overlong? v) json := by
  cases v with
  | ref r =>
    have one := whole r rfl
    obtain ⟨depth, rfl⟩ := Nat.exists_eq_succ_of_ne_zero (deep r rfl)
    refine ⟨.string (h.display (.ref r)), ?_⟩
    cases content : h.cell r with
    | list | tuple => simp [content, Cell.listed?] at one
    | mapping kind entries =>
      cases kind
      case readOnly => simp only [toJsonWithin, content, displayJson]
      all_goals simp [content, Cell.listed?] at one
    | _ => simp only [toJsonWithin, content, displayJson]
  | null | bool | int | float | text | derived | method | primitive | constructor =>
    cases depth <;> exact ⟨_, rfl⟩

/-- A container fails where it is inside itself, for a key, or for something in it. -/
theorem toJsonWithin_eq_error (listed : (h.cell r).listed? = some items)
    (failed : h.toJsonWithin (depth + 1) path (.ref r) = .error failure) :
    (r ∈ path ∧ failure = .fault .circular) ∨ h.Unprintable (.ref r) failure ∨
      (r ∉ path ∧ ∃ item ∈ items, h.toJsonWithin depth (r :: path) item = .error failure) := by
  rcases listed?_cases listed with cell | ⟨kind, entries, cell, writes, rfl⟩
  · rw [toJsonWithin_of_items cell] at failed
    split at failed
    · next again =>
      cases failed
      exact .inl ⟨List.contains_iff_mem.mp again, rfl⟩
    · next new =>
      rcases bind_eq_error.mp failed with below | ⟨_, _, done⟩
      · exact .inr (.inr ⟨fun member => new (List.contains_iff_mem.mpr member), exists_of_mapM_eq_error below⟩)
      · cases done
  · rw [toJsonWithin_of_entries cell writes] at failed
    split at failed
    · next again =>
      cases failed
      exact .inl ⟨List.contains_iff_mem.mp again, rfl⟩
    · next new =>
      rcases bind_eq_error.mp failed with below | ⟨_, _, done⟩
      · obtain ⟨entry, member, failed⟩ := exists_of_mapM_eq_error below
        rcases bind_eq_error.mp failed with unnamed | ⟨_, _, rest⟩
        · exact .inr (.inl (.unnamed (.self _) cell writes member unnamed))
        · rcases bind_eq_error.mp rest with below | ⟨_, _, done⟩
          · exact .inr (.inr ⟨fun member => new (List.contains_iff_mem.mpr member), entry.2.2,
              List.mem_map_of_mem member, below⟩)
          · cases done
      · cases done

/-- A container that has a text is not inside itself, its keys have names, and what is in it has a text. -/
theorem toJsonWithin_eq_ok (listed : (h.cell r).listed? = some items)
    (done : h.toJsonWithin depth path (.ref r) = .ok json) :
    r ∉ path ∧
      (∀ kind entries, h.cell r = .mapping kind entries → ∀ entry ∈ entries, ∃ name, memberName entry.2.1 = .ok name) ∧
      ∀ item ∈ items, ∃ deeper json, h.toJsonWithin deeper (r :: path) item = .ok json := by
  obtain ⟨depth, rfl⟩ : ∃ deeper, depth = deeper + 1 := by
    cases depth with
    | zero => cases done
    | succ depth => exact ⟨depth, rfl⟩
  rcases listed?_cases listed with cell | ⟨kind, entries, cell, writes, rfl⟩
  · rw [toJsonWithin_of_items cell] at done
    split at done
    · cases done
    · next new =>
      obtain ⟨_, below, _⟩ := bind_eq_ok.mp done
      refine ⟨fun member => new (List.contains_iff_mem.mpr member), fun kind entries mapping => ?_,
        fun item member => ⟨depth, exists_of_mapM_eq_ok below item member⟩⟩
      rcases cell with other | other <;> cases other.symm.trans mapping
  · rw [toJsonWithin_of_entries cell writes] at done
    split at done
    · cases done
    · next new =>
      obtain ⟨_, below, _⟩ := bind_eq_ok.mp done
      have each := exists_of_mapM_eq_ok below
      refine ⟨fun member => new (List.contains_iff_mem.mpr member), ?_, ?_⟩
      · intro _ _ same entry member
        cases cell.symm.trans same
        obtain ⟨_, written⟩ := each entry member
        obtain ⟨name, named, _⟩ := bind_eq_ok.mp written
        exact ⟨name, named⟩
      · intro item present
        obtain ⟨entry, member, rfl⟩ := List.mem_map.mp present
        obtain ⟨_, written⟩ := each entry member
        obtain ⟨_, _, rest⟩ := bind_eq_ok.mp written
        obtain ⟨json, here, _⟩ := bind_eq_ok.mp rest
        exact ⟨depth, json, here⟩

structure Opened (h : Heap) (path : List Ref) (v : Value) : Prop where
  inside : ∀ r ∈ path, r < h.size
  distinct : path.Nodup
  leads : ∀ r ∈ path, ∀ s, v = .ref s → TransGen h.Lists r s

theorem Opened.length (opened : h.Opened path v) : path.length ≤ h.size := by
  rw [← List.toFinset_card_of_nodup opened.distinct]
  exact card_le_size fun r member => opened.inside r (List.mem_toFinset.mp member)

theorem Opened.cons (opened : h.Opened path (.ref r)) (listed : (h.cell r).listed? = some items) (new : r ∉ path)
    (member : item ∈ items) : h.Opened (r :: path) item where
  inside := List.forall_mem_cons.mpr ⟨inside_of_listed listed, opened.inside⟩
  distinct := List.nodup_cons.mpr ⟨new, opened.distinct⟩
  leads := by
    rintro s written t rfl
    have lists := lists_of_listed listed member
    rcases List.mem_cons.mp written with rfl | earlier
    · exact .single lists
    · exact (opened.leads s earlier r rfl).tail lists

/-- A failure has its cause in the value, unless the depth does not suffice. -/
theorem unprintable_of_toJsonWithin (opened : h.Opened path v) (deep : h.size < depth + path.length)
    (failed : h.toJsonWithin depth path v = .error failure) : h.Unprintable v failure := by
  induction depth generalizing path v with
  | zero => exact absurd opened.length (by omega)
  | succ depth ih =>
    by_cases container : ∃ r items, v = .ref r ∧ (h.cell r).listed? = some items
    · obtain ⟨r, items, rfl, listed⟩ := container
      rcases toJsonWithin_eq_error listed failed with ⟨again, rfl⟩ | here | ⟨new, item, member, below⟩
      · exact .circular (.self _) (opened.leads r again r rfl)
      · exact here
      · have deeper : h.size < depth + (r :: path).length := by
          rw [List.length_cons]
          omega
        exact (ih (opened.cons listed new member) deeper below).inside listed member
    · have whole (r : Ref) (same : v = .ref r) : (h.cell r).listed? = none :=
        Option.eq_none_iff_forall_ne_some.mpr fun items listed => container ⟨r, items, same, listed⟩
      obtain ⟨json, written⟩ := toJsonWithin_of_whole path (fun _ _ => depth.succ_ne_zero) whole
      obtain ⟨count, long, rfl⟩ := withDigits_eq_error (written ▸ failed)
      exact .overlong (.self _) whole long

/-- What is shown where a value with a text is has a text there, inside all containers on the way. -/
theorem toJsonWithin_of_includes (includes : h.Includes v w) (done : h.toJsonWithin depth path v = .ok json) :
    ∃ deeper further json, path ⊆ further ∧ h.toJsonWithin deeper further w = .ok json := by
  induction includes generalizing depth path json with
  | self v => exact ⟨depth, path, json, List.Subset.refl path, done⟩
  | inside listed member _ ih =>
    obtain ⟨_, _, each⟩ := toJsonWithin_eq_ok listed done
    obtain ⟨_, _, below⟩ := each _ member
    obtain ⟨deeper, further, json, subset, found⟩ := ih below
    exact ⟨deeper, further, json, fun t written => subset (List.mem_cons_of_mem _ written), found⟩

private theorem includes_of_path (path : ReflTransGen h.Lists r s) :
    h.Includes (.ref r) (.ref s) := by
  induction path using ReflTransGen.head_induction_on with
  | refl => exact .self _
  | head lists _ ih =>
    obtain ⟨items, listed, member⟩ := lists
    exact .inside listed member ih

private theorem not_unprintable_of_toJsonWithin (done : h.toJsonWithin depth path v = .ok json) :
    ¬ h.Unprintable v failure := by
  rintro (⟨includes, cycle⟩ | ⟨includes, cell, writes, member, fails⟩ | @⟨w, count, includes, whole, long⟩)
  · obtain ⟨_, _, _, _, found⟩ := toJsonWithin_of_includes includes done
    obtain ⟨next, ⟨items, listed, member⟩, back⟩ := TransGen.head'_iff.mp cycle
    obtain ⟨_, _, each⟩ := toJsonWithin_eq_ok listed found
    obtain ⟨_, _, below⟩ := each _ member
    obtain ⟨_, again, _, subset, twice⟩ := toJsonWithin_of_includes (includes_of_path back) below
    -- Back at the container, it is among those that are being written.
    exact (toJsonWithin_eq_ok listed twice).1 (subset List.mem_cons_self)
  · obtain ⟨_, _, _, _, found⟩ := toJsonWithin_of_includes includes done
    obtain ⟨_, named, _⟩ := toJsonWithin_eq_ok (listed?_of_mapping cell writes) found
    obtain ⟨name, named⟩ := named _ _ cell _ member
    exact nomatch fails.symm.trans named
  · obtain ⟨deeper, further, _, _, found⟩ := toJsonWithin_of_includes includes done
    have within_ (r : Ref) (same : w = .ref r) : deeper ≠ 0 := by
      rintro rfl
      subst same
      cases found
    obtain ⟨_, written⟩ := toJsonWithin_of_whole further within_ whole
    exact nomatch long.symm.trans (withDigits_eq_ok (written ▸ found))

theorem unprintable_of_stringify (failed : h.stringify v = .error failure) : h.Unprintable v failure := by
  have opened : h.Opened [] v := ⟨List.forall_mem_nil _, List.nodup_nil, List.forall_mem_nil _⟩
  rcases bind_eq_error.mp failed with failed | ⟨_, _, done⟩
  · exact unprintable_of_toJsonWithin opened (by simp) failed
  · cases done

theorem not_unprintable_of_stringify {text : Text} (written : h.stringify v = .ok text) : ¬ h.Unprintable v failure := by
  obtain ⟨json, done, _⟩ := bind_eq_ok.mp written
  exact not_unprintable_of_toJsonWithin done

end Heap

end GuardedExpr

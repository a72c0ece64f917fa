/-!
Tables with distinct keys in the order of their first insertion. Writing to a key that is present changes
its value and leaves it in its place.
-/

namespace GuardedExpr

abbrev Table (κ α : Type) := List (κ × α)

namespace Table

variable {κ α : Type} [DecidableEq κ]

def lookup (key : κ) : Table κ α → Option α
  | [] => none
  | (other, value) :: rest => if key = other then some value else lookup key rest

/-- Replaces the value of a key by a function of the old one; a new key goes to the end. -/
def alter (key : κ) (change : Option α → α) : Table κ α → Table κ α
  | [] => [(key, change none)]
  | (other, value) :: rest =>
    if key = other then (other, change (some value)) :: rest
    else (other, value) :: alter key change rest

def insert (key : κ) (value : α) (table : Table κ α) : Table κ α :=
  alter key (fun _ => value) table

/-- A value that is found stands in the table under its key. -/
theorem mem_of_lookup {key : κ} {value : α} {table : Table κ α} (found : lookup key table = some value) :
    (key, value) ∈ table := by
  induction table with
  | nil => cases found
  | cons entry rest ih =>
    rcases entry with ⟨other, first⟩
    rw [lookup] at found
    split at found
    · next equal =>
      cases found
      rw [equal]
      exact List.mem_cons_self
    · exact List.mem_cons_of_mem _ (ih found)

theorem lookup_alter_same (key : κ) (change : Option α → α) (table : Table κ α) :
    lookup key (alter key change table) = some (change (lookup key table)) := by
  induction table with
  | nil => simp [alter, lookup]
  | cons entry rest ih =>
    rcases entry with ⟨other, value⟩
    by_cases equal : key = other
    · simp [alter, lookup, equal]
    · simp [alter, lookup, equal, ih]

theorem lookup_alter_other {key other : κ} (change : Option α → α) (table : Table κ α)
    (different : other ≠ key) : lookup other (alter key change table) = lookup other table := by
  induction table with
  | nil => simp [alter, lookup, different]
  | cons entry rest ih =>
    rcases entry with ⟨head, value⟩
    by_cases equal : key = head
    · subst head
      simp [alter, lookup, different]
    · simp [alter, lookup, equal, ih]

theorem lookup_insert_same (key : κ) (value : α) (table : Table κ α) :
    lookup key (insert key value table) = some value :=
  lookup_alter_same key (fun _ => value) table

theorem lookup_insert_other {key other : κ} (value : α) (table : Table κ α) (different : other ≠ key) :
    lookup other (insert key value table) = lookup other table :=
  lookup_alter_other (fun _ => value) table different

/-- A key that is present keeps its place, and a new one goes to the end. -/
theorem keys_alter (key : κ) (change : Option α → α) (table : Table κ α) :
    (alter key change table).map Prod.fst =
      if key ∈ table.map Prod.fst then table.map Prod.fst else table.map Prod.fst ++ [key] := by
  induction table with
  | nil => simp [alter]
  | cons entry rest ih =>
    rcases entry with ⟨other, value⟩
    by_cases equal : key = other
    · simp [alter, equal]
    · by_cases present : key ∈ rest.map Prod.fst
      · simp [alter, equal, ih, present]
      · simp [alter, equal, ih, present]

/-- What holds of all values of a table, of a new one and of those that come of old ones, holds after a change. -/
theorem forall_alter {P : α → Prop} {key : κ} {change : Option α → α} {table : Table κ α}
    (all : ∀ entry ∈ table, P entry.2) (new : P (change none)) (old : ∀ value, P value → P (change (some value))) :
    ∀ entry ∈ alter key change table, P entry.2 := by
  induction table with
  | nil => exact fun entry member => List.mem_singleton.mp member ▸ new
  | cons entry rest ih =>
    obtain ⟨head, tail⟩ := List.forall_mem_cons.mp all
    rw [alter]
    split
    · exact List.forall_mem_cons.mpr ⟨old _ head, tail⟩
    · exact List.forall_mem_cons.mpr ⟨head, ih tail⟩

end Table

end GuardedExpr

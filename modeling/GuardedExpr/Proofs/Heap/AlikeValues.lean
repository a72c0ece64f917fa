import GuardedExpr.Proofs.Heap.DirectKinds
import GuardedExpr.Proofs.Heap.HeapGrowth
import Mathlib.Data.List.Forall2

/-!
The same value, up to newly built arrays and objects. Two heaps that have grown from one share its containers;
what was built since in the one and in the other is compared by what it holds. Alike values answer all
questions alike: for their kind and truth, to the guards, and for their members.
-/

namespace GuardedExpr

def Entries.KeysBelow (bound : Nat) (entries : Entries) : Prop :=
  ∀ entry ∈ entries, entry.1.all (·.isBelow bound)

namespace Heap

/-- A value of the one heap and a value of the other are the same, where the first `old` containers are shared
and newer arrays and objects are compared by what they hold. -/
inductive Alike (old : Nat) (a b : Heap) : Value → Value → Prop where
  | same {v : Value} (below : v.isBelow old) : Alike old a b v v
  | list {r s : Ref} {items others : List Value} (new : old ≤ r ∧ old ≤ s) (left : a.cell r = .list items)
      (right : b.cell s = .list others) (length : items.length = others.length)
      (each : ∀ pair ∈ items.zip others, Alike old a b pair.1 pair.2) : Alike old a b (.ref r) (.ref s)
  | mapping {r s : Ref} {entries others : Entries} (new : old ≤ r ∧ old ≤ s)
      (left : a.cell r = .mapping .plain entries) (right : b.cell s = .mapping .plain others)
      (plain : entries.KeysBelow old) (length : entries.length = others.length)
      (keys : ∀ pair ∈ entries.zip others, pair.1.1 = pair.2.1 ∧ pair.1.2.1 = pair.2.2.1)
      (each : ∀ pair ∈ entries.zip others, Alike old a b pair.1.2.2 pair.2.2.2) :
      Alike old a b (.ref r) (.ref s)
  | method {r s : Ref} (new : old ≤ r ∧ old ≤ s) (name : Text) (receivers : Alike old a b (.ref r) (.ref s)) :
      Alike old a b (.method (.ofList r name)) (.method (.ofList s name))

abbrev PairedEntries (related : Value → Value → Prop) : Entries → Entries → Prop :=
  List.Forall₂ fun entry other =>
    (entry.1 = other.1 ∧ entry.2.1 = other.2.1) ∧ related entry.2.2 other.2.2

variable {old : Nat} {base a b c later further : Heap} {v w u : Value} {r s : Ref}
  {items others : List Value} {entries fresh : Entries} {related : Value → Value → Prop}

theorem Alike.of_items (new : old ≤ r ∧ old ≤ s) (left : a.cell r = .list items)
    (right : b.cell s = .list others) (each : List.Forall₂ (Alike old a b) items others) :
    Alike old a b (.ref r) (.ref s) := by
  obtain ⟨length, pairs⟩ := List.forall₂_iff_zip.mp each
  exact .list new left right length fun _ member => pairs member

theorem Alike.of_entries (new : old ≤ r ∧ old ≤ s) (left : a.cell r = .mapping .plain entries)
    (right : b.cell s = .mapping .plain fresh) (plain : entries.KeysBelow old)
    (each : PairedEntries (Alike old a b) entries fresh) : Alike old a b (.ref r) (.ref s) := by
  obtain ⟨length, pairs⟩ := List.forall₂_iff_zip.mp each
  exact .mapping new left right plain length (fun _ member => (pairs member).1)
    fun _ member => (pairs member).2

theorem Alike.grow (alike : Alike old a b v w) (left : a.Grows later) (right : b.Grows further) :
    Alike old later further v w := by
  have kept {h after : Heap} {r : Ref} {content : Cell} (grows : h.Grows after)
      (found : h.cell r = content) (other : content ≠ .module []) : after.cell r = content := by
    rw [grows.same r (inside_of_cell found other), found]
  induction alike with
  | same below => exact .same below
  | list new first second length _ hypothesis =>
    exact .list new (kept left first nofun) (kept right second nofun) length hypothesis
  | mapping new first second plain length keys _ hypothesis =>
    exact .mapping new (kept left first nofun) (kept right second nofun) plain length keys hypothesis
  | method new name _ hypothesis => exact .method new name hypothesis

/-- A value that lies in the shared part is alike to itself alone. -/
theorem Alike.eq_of_below (alike : Alike old a b v w) (below : w.isBelow old) : v = w := by
  cases alike with
  | same below => rfl
  | list new => exact absurd (of_decide_eq_true below) (Nat.not_lt.mpr new.2)
  | mapping new => exact absurd (of_decide_eq_true below) (Nat.not_lt.mpr new.2)
  | method new => exact absurd (of_decide_eq_true below) (Nat.not_lt.mpr new.2)

/-! What is alike to a new value has the shape of that value. -/

private theorem Alike.exists_list (alike : Alike old a b v (.ref s)) (new : old ≤ s)
    (right : b.cell s = .list others) :
    ∃ r items, v = .ref r ∧ old ≤ r ∧ a.cell r = .list items ∧
      List.Forall₂ (Alike old a b) items others := by
  cases alike with
  | same below => exact absurd (of_decide_eq_true below) (Nat.not_lt.mpr new)
  | list both left found length each =>
    cases right.symm.trans found
    exact ⟨_, _, rfl, both.1, left, List.forall₂_iff_zip.mpr ⟨length, fun member => each _ member⟩⟩
  | mapping both left found => cases right.symm.trans found

private theorem Alike.exists_mapping (alike : Alike old a b v (.ref s)) (new : old ≤ s)
    (right : b.cell s = .mapping .plain fresh) :
    ∃ r entries, v = .ref r ∧ old ≤ r ∧ a.cell r = .mapping .plain entries ∧
      entries.KeysBelow old ∧ PairedEntries (Alike old a b) entries fresh := by
  cases alike with
  | same below => exact absurd (of_decide_eq_true below) (Nat.not_lt.mpr new)
  | list both left found => cases right.symm.trans found
  | mapping both left found plain length keys each =>
    cases right.symm.trans found
    exact ⟨_, _, rfl, both.1, left, plain,
      List.forall₂_iff_zip.mpr ⟨length, fun member => ⟨keys _ member, each _ member⟩⟩⟩

private theorem Alike.exists_method {name : Text}
    (alike : Alike old a b v (.method (.ofList s name))) (new : old ≤ s) :
    ∃ r, v = .method (.ofList r name) ∧ old ≤ r ∧ Alike old a b (.ref r) (.ref s) := by
  cases alike with
  | same below => exact absurd (of_decide_eq_true below) (Nat.not_lt.mpr new)
  | method both _ receivers => exact ⟨_, rfl, both.1, receivers⟩

theorem forall₂_trans_symm {α β γ : Type} {first : α → β → Prop} {second : γ → β → Prop}
    {result : α → γ → Prop} (combine : ∀ x y z, first x y → second z y → result x z)
    {xs : List α} {ys : List β} {zs : List γ} (left : List.Forall₂ first xs ys)
    (right : List.Forall₂ second zs ys) : List.Forall₂ result xs zs := by
  induction left generalizing zs with
  | nil =>
    cases right
    exact .nil
  | cons head _ hypothesis =>
    cases right with
    | cons other rest => exact .cons (combine _ _ _ head other) (hypothesis rest)

theorem Alike.trans_symm (first : Alike old a b v w) (second : Alike old c b u w) : Alike old a c v u := by
  induction first generalizing u with
  | same below =>
    rw [second.eq_of_below below]
    exact .same below
  | @list _ _ items others new left right length _ hypothesis =>
    obtain ⟨r, further, rfl, also, found, each⟩ := second.exists_list new.2 right
    have combine : List.Forall₂ (fun v w => ∀ {u}, Alike old c b u w → Alike old a c v u) items others :=
      List.forall₂_iff_zip.mpr ⟨length, fun member => hypothesis _ member⟩
    refine .of_items ⟨new.1, also⟩ left found (forall₂_trans_symm ?_ combine each)
    exact fun item _ other next alike => next alike
  | @mapping _ _ entries others new left right plain length keys _ hypothesis =>
    obtain ⟨r, further, rfl, also, found, _, each⟩ := second.exists_mapping new.2 right
    have combine : PairedEntries (fun v w => ∀ {u}, Alike old c b u w → Alike old a c v u) entries others :=
      List.forall₂_iff_zip.mpr ⟨length, fun member => ⟨keys _ member, hypothesis _ member⟩⟩
    refine .of_entries ⟨new.1, also⟩ left found plain (forall₂_trans_symm ?_ combine each)
    rintro entry _ other ⟨⟨key, shown⟩, next⟩ ⟨⟨same, sameShown⟩, alike⟩
    exact ⟨⟨key.trans same.symm, shown.trans sameShown.symm⟩, next alike⟩
  | method new name _ hypothesis =>
    obtain ⟨r, rfl, also, receivers⟩ := second.exists_method new.2
    exact .method ⟨new.1, also⟩ name (hypothesis receivers)

end Heap

end GuardedExpr

import GuardedExpr.Proofs.Heap.HeapRegions
import GuardedExpr.Proofs.Node.WrittenTrees

/-!
Heaps without loose ends. In a closed heap every reference that a cell holds has a cell, so whatever is read
from it lies in it, and it stays closed when something that lies in it is written.
-/

namespace GuardedExpr

def Method.isBelow (bound : Nat) : Method → Bool
  | .increment r => r < bound
  | .ofList r _ => r < bound
  | .ofTuple r _ => r < bound
  | .ofScalar _ _ => true

def Value.isBelow (bound : Nat) : Value → Bool
  | .ref r => r < bound
  | .method m => m.isBelow bound
  | _ => true

def KeyPart.isBelow (bound : Nat) : KeyPart → Bool
  | .identity r => r < bound
  | .method m => m.isBelow bound
  | _ => true

def Fields.areBelow (bound : Nat) (fields : Fields) : Bool :=
  fields.all fun field => field.2.isBelow bound

def Entries.areBelow (bound : Nat) (entries : Entries) : Bool :=
  entries.all fun entry =>
    entry.1.all (·.isBelow bound) && entry.2.1.isBelow bound && entry.2.2.isBelow bound

def Cell.isBelow (bound : Nat) : Cell → Bool
  | .list items => items.all (·.isBelow bound)
  | .tuple items => items.all (·.isBelow bound)
  | .mapping _ entries => entries.areBelow bound
  | .object _ fields => fields.areBelow bound
  | .function _ _ fields => fields.areBelow bound
  | .userClass fields => fields.areBelow bound
  | .userInstance cls fields => cls < bound && fields.areBelow bound
  | .module fields => fields.areBelow bound

def Heap.IsClosed (h : Heap) : Prop :=
  ∀ r, r < h.size → (h.cell r).isBelow h.size

instance (h : Heap) : Decidable h.IsClosed :=
  inferInstanceAs (Decidable (∀ r, r < h.size → (h.cell r).isBelow h.size))

section Bounds

variable {bound higher : Nat}

theorem Method.isBelow_mono (upward : bound ≤ higher) {m : Method} (below : m.isBelow bound) :
    m.isBelow higher := by
  cases m with
  | ofScalar scalar name => rfl
  | _ =>
    simp only [Method.isBelow, decide_eq_true_eq] at below ⊢
    exact Nat.lt_of_lt_of_le below upward

theorem Value.isBelow_mono (upward : bound ≤ higher) {v : Value} (below : v.isBelow bound) :
    v.isBelow higher := by
  cases v with
  | ref r =>
    simp only [Value.isBelow, decide_eq_true_eq] at below ⊢
    exact Nat.lt_of_lt_of_le below upward
  | method m => exact Method.isBelow_mono upward below
  | _ => rfl

theorem Value.isBelow_of_isScalar {v : Value} (scalar : v.isScalar) (bound : Nat) : v.isBelow bound := by
  cases v <;> first | rfl | cases scalar

theorem KeyPart.isBelow_mono (upward : bound ≤ higher) {part : KeyPart} (below : part.isBelow bound) :
    part.isBelow higher := by
  cases part with
  | identity r =>
    simp only [KeyPart.isBelow, decide_eq_true_eq] at below ⊢
    exact Nat.lt_of_lt_of_le below upward
  | method m => exact Method.isBelow_mono upward below
  | _ => rfl

theorem Fields.areBelow_mono (upward : bound ≤ higher) {fields : Fields} (below : fields.areBelow bound) :
    fields.areBelow higher := by
  simp only [Fields.areBelow, List.all_eq_true] at below ⊢
  exact fun field member => Value.isBelow_mono upward (below field member)

theorem Entries.areBelow_mono (upward : bound ≤ higher) {entries : Entries}
    (below : entries.areBelow bound) : entries.areBelow higher := by
  simp only [Entries.areBelow, List.all_eq_true, Bool.and_eq_true] at below ⊢
  intro entry member
  obtain ⟨⟨key, shown⟩, value⟩ := below entry member
  exact ⟨⟨fun part inside => KeyPart.isBelow_mono upward (key part inside),
    Value.isBelow_mono upward shown⟩, Value.isBelow_mono upward value⟩

theorem Cell.isBelow_mono (upward : bound ≤ higher) {c : Cell} (below : c.isBelow bound) :
    c.isBelow higher := by
  have items {values : List Value} (all : values.all (·.isBelow bound)) :
      values.all (·.isBelow higher) := by
    simp only [List.all_eq_true] at all ⊢
    exact fun value member => Value.isBelow_mono upward (all value member)
  cases c with
  | list values => exact items below
  | tuple values => exact items below
  | mapping kind entries => exact Entries.areBelow_mono upward below
  | userInstance cls fields =>
    simp only [Cell.isBelow, Bool.and_eq_true, decide_eq_true_eq] at below ⊢
    exact ⟨Nat.lt_of_lt_of_le below.1 upward, Fields.areBelow_mono upward below.2⟩
  | _ => exact Fields.areBelow_mono upward below

end Bounds

namespace Heap

variable {h after : Heap} {v : Value} {name : Text}

theorem IsClosed.cell (closed : h.IsClosed) (r : Ref) : (h.cell r).isBelow h.size := by
  by_cases inside : r < h.size
  · exact closed r inside
  · rw [h.cell_outside (Nat.le_of_not_lt inside)]
    rfl

theorem IsClosed.fields (closed : h.IsClosed) {r : Ref} {fields : Fields}
    (found : fields? (h.cell r) = some fields) : fields.areBelow h.size := by
  have below := closed.cell r
  cases content : h.cell r with
  | list items => simp [content, fields?] at found
  | tuple items => simp [content, fields?] at found
  | mapping kind entries => simp [content, fields?] at found
  | userInstance cls own =>
    rw [content] at below found
    cases found
    exact (Bool.and_eq_true_iff.mp below).2
  | _ =>
    rw [content] at below found
    cases found
    exact below

theorem key?_of_isScalar (scalar : v.isScalar) :
    ∃ hashed : Key, (∀ other : Heap, other.key? v = some hashed) ∧ ∀ bound, hashed.all (·.isBelow bound) := by
  cases v with
  | null => exact ⟨_, fun _ => rfl, fun _ => rfl⟩
  | bool => exact ⟨_, fun _ => rfl, fun _ => rfl⟩
  | int => exact ⟨_, fun _ => rfl, fun _ => rfl⟩
  | text => exact ⟨_, fun _ => rfl, fun _ => rfl⟩
  | float x =>
    refine ⟨_, fun _ => rfl, fun bound => ?_⟩
    simp only [Double.keyPart]
    split <;> rfl
  | _ => cases scalar

/-! What is read from a closed heap lies in it. -/

theorem IsClosed.entries (closed : h.IsClosed) {entries : Entries} (found : h.entries? v = some entries) :
    entries.areBelow h.size := by
  cases v with
  | ref r =>
    have below := closed.cell r
    simp only [entries?] at found
    split at found
    · next kind inner isMapping =>
      cases found
      rw [isMapping] at below
      exact below
    · cases found
  | _ => cases found

theorem liesIn_iff {bound : Nat} : v.LiesIn (· < bound) ↔ v.isBelow bound := by
  cases v with
  | ref r => simp [Value.LiesIn, Value.isBelow]
  | method m => cases m <;> simp [Value.LiesIn, Method.LiesIn, Value.isBelow, Method.isBelow]
  | _ => exact iff_of_true trivial rfl

theorem IsClosed.encloses (closed : h.IsClosed) : h.Encloses (· < h.size) := by
  intro r inside
  have below := closed r inside
  have items {values : List Value} (all : values.all (·.isBelow h.size)) :
      ∀ value ∈ values, value.LiesIn (· < h.size) :=
    fun value member => liesIn_iff.mpr (List.all_eq_true.mp all value member)
  have fields {fields : Fields} (all : fields.areBelow h.size) : fields.LieIn (· < h.size) :=
    fun field member => liesIn_iff.mpr (List.all_eq_true.mp all field member)
  cases content : h.cell r <;> rw [content] at below
  case list values | tuple values => exact items below
  case mapping kind entries =>
    intro entry member
    have inside := List.all_eq_true.mp below entry member
    simp only [Bool.and_eq_true] at inside
    exact ⟨liesIn_iff.mpr inside.1.2, liesIn_iff.mpr inside.2⟩
  case userInstance cls own =>
    obtain ⟨first, others⟩ := Bool.and_eq_true_iff.mp below
    exact ⟨of_decide_eq_true first, fields others⟩
  all_goals exact fields below

theorem IsClosed.own (closed : h.IsClosed) (below : v.isBelow h.size) (name : Text) :
    (h.own v name).isBelow h.size :=
  liesIn_iff.mp (closed.encloses.own (liesIn_iff.mpr below) name)

theorem IsClosed.getMember (closed : h.IsClosed) (below : v.isBelow h.size) {key member : Value}
    (found : h.getMember v key = .ok member) : member.isBelow h.size :=
  liesIn_iff.mp (closed.encloses.getMember (liesIn_iff.mpr below) found)

end Heap

end GuardedExpr

import GuardedExpr.Proofs.Heap.AlikeAnswers
import GuardedExpr.Proofs.Heap.ConstantExpressions
import GuardedExpr.Proofs.Route.VivifiedPaths

/-!
Copies: alike values of two memories that have no container in common. What a constant expression builds in the one
is a copy of what it builds in the other. A copy is a finite tree, so the question for its kind has an end, and
still has one when a new empty object is put into an object of the tree.
-/

namespace GuardedExpr

namespace Heap

/-- Values of two memories that have nothing in common: the same scalar, or two containers that hold copies. -/
abbrev Copies (a b : Heap) (v w : Value) : Prop :=
  Alike empty.size a b v w

theorem branches_empty (a b : Heap) : Branches empty a b where
  closed := fun _ inside => absurd inside (Nat.not_lt_zero _)
  left := ⟨Nat.zero_le _, fun _ inside => absurd inside (Nat.not_lt_zero _)⟩
  right := ⟨Nat.zero_le _, fun _ inside => absurd inside (Nat.not_lt_zero _)⟩

variable {a b : Heap} {v w : Value} {r s : Ref} {old : Nat} {entries others : Entries} {items : List Value}

theorem Alike.symm (alike : Alike old a b v w) : Alike old b a w v := by
  induction alike with
  | same below => exact .same below
  | @list _ _ items others new left right length _ hypothesis =>
    have each : List.Forall₂ (fun v w => Alike old b a w v) items others :=
      List.forall₂_iff_zip.mpr ⟨length, fun member => hypothesis _ member⟩
    exact .of_items new.symm right left each.flip
  | @mapping _ _ entries others new left right plain length keys _ hypothesis =>
    have each : PairedEntries (fun v w => Alike old b a w v) entries others :=
      List.forall₂_iff_zip.mpr ⟨length, fun member => ⟨keys _ member, hypothesis _ member⟩⟩
    refine .of_entries new.symm right left ((keysBelow_of_paired each).mp plain) (List.Forall₂.flip ?_)
    exact each.imp fun _ _ pair => ⟨⟨pair.1.1.symm, pair.1.2.symm⟩, pair.2⟩
  | method new name _ hypothesis => exact .method new.symm name hypothesis

theorem Copies.of_empty (left : a.cell r = .mapping .plain []) (right : b.cell s = .mapping .plain []) :
    Copies a b (.ref r) (.ref s) :=
  .of_entries ⟨Nat.zero_le _, Nat.zero_le _⟩ left right (List.forall_mem_nil _) .nil

/-- What passes for the values of an object, and for null, passes for its members. -/
theorem holds_of_lookup {P : Value → Prop} (null : P .null) (each : PairedEntries (fun v _ => P v) entries others)
    (key : Key) : P (((Table.lookup key entries).map Prod.snd).getD .null) :=
  @related_of_lookup (fun v _ => P v) _ _ null (lookup_paired each key)

/-- Questions about a tree have an end, also in a memory where its arrays are as they were, and each member of its
objects is as it was or one that has an end. The induction is on the tree. -/
theorem Copies.acc {g : Heap} (copies : Copies a b v w)
    (lists : ∀ q items, a.cell q = .list items → g.cell q = .list items)
    (mappings : ∀ q members field, a.cell q = .mapping .plain members →
      g.own (.ref q) field = a.own (.ref q) field ∨ Acc (fun w v => g.Asks v w) (g.own (.ref q) field)) :
    Acc (fun w v => g.Asks v w) v := by
  induction copies with
  | @same v below =>
    refine acc_of_no_container fun q isRef => ?_
    subst isRef
    exact absurd (of_decide_eq_true below : q < empty.size) (Nat.not_lt_zero q)
  | list _ left =>
    constructor
    intro w asks
    obtain ⟨-, field, rfl⟩ := unmarked_of_asks asks
    rw [own_of_list (lists _ _ left)]
    refine acc_of_no_container ?_
    split_ifs <;> nofun
  | @mapping q _ members others _ left _ _ length keys _ hypothesis =>
    have each : PairedEntries (fun v _ => Acc (fun w v => g.Asks v w) v) members others :=
      List.forall₂_iff_zip.mpr ⟨length, fun member => ⟨keys _ member, hypothesis _ member⟩⟩
    constructor
    intro w asks
    obtain ⟨-, field, rfl⟩ := unmarked_of_asks asks
    rcases mappings q members field left with same | ends
    · rw [same, own_of_mapping left]
      exact holds_of_lookup acc_null each [.text field]
    · exact ends
  | method => exact acc_of_no_container nofun

theorem Copies.not_isEndless (copies : Copies a b v w) : ¬ a.IsEndless v :=
  not_isEndless_of_acc (copies.acc (fun _ _ => id) fun _ _ _ _ => .inl rfl)

/-- A new empty object in an object makes no question endless that is asked of a tree. -/
theorem Copies.not_isEndless_withCreated (copies : Copies a b v w) (content : a.cell r = .mapping .plain entries)
    (name : Text) : ¬ (a.withCreated r .plain entries name).IsEndless v := by
  refine not_isEndless_of_acc (copies.acc (fun q items left => ?_) fun q members field left => ?_)
  · have apart : q ≠ r := by
      rintro rfl
      cases left.symm.trans content
    exact (cell_withCreated_old name (inside_of_list left) apart).trans left
  · by_cases here : q = r
    · subst here
      rw [own_withCreated content, own_of_mapping content]
      split
      · exact .inr (acc_of_empty (cell_withCreated_new content name))
      · exact .inl rfl
    · left
      rw [own_of_mapping ((cell_withCreated_old name (inside_of_mapping left) here).trans left), own_of_mapping left]

end Heap

open Heap

namespace Node

variable {a b : Heap} {i j : Nat}

private theorem keysBelow_set {entries : Entries} {key : Node} (is : key.isKey)
    (below : entries.KeysBelow Heap.empty.size)
    (made : Value) :
    (entries.set ((Heap.empty.key? key.keyValue).getD []) key.keyValue made).KeysBelow Heap.empty.size := by
  obtain ⟨_, scalar, _⟩ := exists_propertyKey Heap.empty is
  obtain ⟨hashed, same, plain⟩ := key?_of_isScalar scalar
  rw [same]
  exact Entries.keys_set (P := fun key => key.all (·.isBelow Heap.empty.size)) below (plain _) _ _

mutual

/-- What a constant expression builds in one memory is a copy of what it builds in another. -/
theorem copies_build : (node : Node) → node.isConstant → node.isRegular → ∀ {i j : Nat},
    a.Contains i (node.build i).cells → b.Contains j (node.build j).cells →
      Copies a b (node.build i).made (node.build j).made
  | .literal _, _, regular, _, _, _, _ => .same (Value.isBelow_of_isScalar regular _)
  | .array elements, constant, regular, i, j, left, right => by
    obtain ⟨inner, last⟩ := left.append (buildAll elements i).cells
    obtain ⟨others, end_⟩ := right.append (buildAll elements j).cells
    exact .of_items ⟨Nat.zero_le _, Nat.zero_le _⟩ (last 0 _ rfl) (end_ 0 _ rfl)
      (copies_buildAll elements constant regular inner others)
  | .object properties, constant, regular, i, j, left, right => by
    obtain ⟨inner, last⟩ := left.append (buildEntries properties [] i).cells
    obtain ⟨others, end_⟩ := right.append (buildEntries properties [] j).cells
    obtain ⟨below, each⟩ := copies_buildEntries properties constant regular (List.forall_mem_nil _) .nil inner others
    exact .of_entries ⟨Nat.zero_le _, Nat.zero_le _⟩ (last 0 _ rfl) (end_ 0 _ rfl) below each

theorem copies_buildAll : (nodes : List Node) → areConstant nodes → areRegular nodes → ∀ {i j : Nat},
    a.Contains i (buildAll nodes i).cells → b.Contains j (buildAll nodes j).cells →
      List.Forall₂ (Copies a b) (buildAll nodes i).made (buildAll nodes j).made
  | [], _, _, _, _, _, _ => .nil
  | node :: nodes, constant, regular, i, j, left, right => by
    obtain ⟨constantHere, constantThere⟩ := Bool.and_eq_true_iff.mp constant
    obtain ⟨regularHere, regularThere⟩ := Bool.and_eq_true_iff.mp regular
    rw [(buildAll_cons node nodes _).2] at left right
    obtain ⟨first, others⟩ := left.append _
    obtain ⟨also, rest⟩ := right.append _
    rw [(buildAll_cons node nodes _).1, (buildAll_cons node nodes _).1]
    exact .cons (copies_build node constantHere regularHere first also)
      (copies_buildAll nodes constantThere regularThere others rest)

theorem copies_buildEntries : (properties : List Node) → haveConstantValues properties →
    areRegularProperties properties → ∀ {entries others : Entries}, entries.KeysBelow Heap.empty.size →
      PairedEntries (Copies a b) entries others → ∀ {i j : Nat},
        a.Contains i (buildEntries properties entries i).cells → b.Contains j (buildEntries properties others j).cells →
          (buildEntries properties entries i).made.KeysBelow Heap.empty.size ∧
            PairedEntries (Copies a b) (buildEntries properties entries i).made (buildEntries properties others j).made
  | [], _, _, _, _, below, each, _, _, _, _ => ⟨below, each⟩
  | .property key value :: properties, constant, regular, entries, others, below, each, i, j, left, right => by
    obtain ⟨constantHere, constantThere⟩ := Bool.and_eq_true_iff.mp constant
    obtain ⟨both, regularThere⟩ := Bool.and_eq_true_iff.mp regular
    obtain ⟨is, regularHere⟩ := Bool.and_eq_true_iff.mp both
    obtain ⟨first, inner⟩ := left.append (value.build i).cells
    obtain ⟨also, rest⟩ := right.append (value.build j).cells
    exact copies_buildEntries properties constantThere regularThere (keysBelow_set is below _)
      (paired_set each (copies_build value constantHere regularHere first also)) inner rest

end

end Node

end GuardedExpr

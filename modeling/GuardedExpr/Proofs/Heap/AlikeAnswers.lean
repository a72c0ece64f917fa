import GuardedExpr.Proofs.Heap.AlikeValues

/-!
Alike values answer alike. In two heaps that have grown from one, what is asked of a value in the one has the
same answer, or an alike one, as what is asked of its like in the other.
-/

namespace GuardedExpr.Heap

structure Branches (base a b : Heap) : Prop where
  closed : base.IsClosed
  left : base.Grows a
  right : base.Grows b

variable {base a b h : Heap} {v w container like : Value} {name : Text} {r : Ref} {items : List Value}
  {kind : MappingKind} {entries others : Entries} {related : Value → Value → Prop}

theorem Branches.grow {later further : Heap} (branches : Branches base a b) (left : a.Grows later)
    (right : b.Grows further) : Branches base later further :=
  ⟨branches.closed, branches.left.trans left, branches.right.trans right⟩

theorem lookup_paired (paired : PairedEntries related entries others) (key : Key) :
    Option.Rel (fun entry other => related entry.2 other.2) (Table.lookup key entries)
      (Table.lookup key others) := by
  induction paired with
  | nil => exact .none
  | @cons entry other _ _ head _ hypothesis =>
    simp only [Table.lookup, head.1.1]
    split
    · exact .some head.2
    · exact hypothesis

theorem related_of_lookup {found other : Option (Value × Value)} (null : related .null .null)
    (paired : Option.Rel (fun entry other => related entry.2 other.2) found other) :
    related ((found.map Prod.snd).getD .null) ((other.map Prod.snd).getD .null) := by
  cases paired with
  | none => exact null
  | some values => exact values

theorem own_of_list (found : h.cell r = .list items) :
    h.own (.ref r) name =
      if listMethods.contains name then .method (.ofList r name) else .null := by
  simp only [own, entries?, attribute?, inherited?, fields?, found, Option.bind_none]
  split <;> rfl

theorem own_of_mapping (found : h.cell r = .mapping kind entries) :
    h.own (.ref r) name = ((Table.lookup [.text name] entries).map Prod.snd).getD .null := by
  simp only [own, entries?, found]

theorem own_mapping_ne (found : h.cell r = .mapping kind entries)
    (members : ∀ entry, Table.lookup [.text name] entries = some entry → entry.2 = .ref r →
      h.own entry.2 name ≠ entry.2) : h.own (.ref r) name ≠ .ref r := by
  intro itself
  have holds : h.own (.ref r) name = _ := own_of_mapping found
  cases looked : Table.lookup [KeyPart.text name] entries with
  | none =>
    rw [itself, looked] at holds
    cases holds
  | some entry =>
    rw [itself, looked] at holds
    have same : entry.2 = .ref r := holds.symm
    apply members entry looked same
    rw [same, itself]

section Members

variable (branches : Branches base a b) (alike : Alike base.size a b v w)

include branches alike

theorem Branches.own (name : Text) : Alike base.size a b (a.own v name) (b.own w name) := by
  cases alike with
  | same below =>
    rw [branches.left.own branches.closed below, branches.right.own branches.closed below]
    exact .same (branches.closed.own below name)
  | list new left right length each =>
    rw [own_of_list left, own_of_list right]
    split
    · exact .method new name (.list new left right length each)
    · exact .same rfl
  | mapping new left right plain length keys each =>
    rw [own_of_mapping left, own_of_mapping right]
    have paired : PairedEntries (Alike base.size a b) _ _ :=
      List.forall₂_iff_zip.mpr ⟨length, fun member => ⟨keys _ member, each _ member⟩⟩
    exact related_of_lookup (.same rfl) (lookup_paired paired [.text name])
  | method => exact .same rfl

omit branches in
/-- Whatever is new holds only what was there before it, and so not itself. -/
theorem Alike.own_ne (name : Text) :
    (¬ v.isBelow base.size → a.own v name ≠ v) ∧ (¬ w.isBelow base.size → b.own w name ≠ w) := by
  induction alike with
  | same below =>
    exact ⟨fun new => absurd below new, fun new => absurd below new⟩
  | list new left right =>
    rw [own_of_list left, own_of_list right]
    constructor <;> intro _ <;> split <;> nofun
  | @mapping r s entries others new left right plain length keys each hypothesis =>
    have paired : PairedEntries (fun v w => (¬ v.isBelow base.size → a.own v name ≠ v) ∧
        (¬ w.isBelow base.size → b.own w name ≠ w)) _ _ :=
      List.forall₂_iff_zip.mpr ⟨length, fun member => ⟨keys _ member, hypothesis _ member⟩⟩
    have both := lookup_paired paired [.text name]
    constructor
    · intro fresh
      apply own_mapping_ne left
      intro entry looked same
      rw [looked] at both
      generalize Table.lookup [.text name] others = other at both
      cases both with
      | some holds => exact holds.1 (same ▸ fresh)
    · intro fresh
      apply own_mapping_ne right
      intro entry looked same
      rw [looked] at both
      generalize Table.lookup [.text name] entries = other at both
      cases both with
      | some holds => exact holds.2 (same ▸ fresh)
  | method => exact ⟨fun _ => nofun, fun _ => nofun⟩

omit branches in
private theorem Alike.isBelow_iff : v.isBelow base.size ↔ w.isBelow base.size := by
  cases alike with
  | same below => exact Iff.rfl
  | _ new =>
    simp only [Value.isBelow, Method.isBelow, decide_eq_true_eq]
    exact iff_of_false (Nat.not_lt.mpr new.1) (Nat.not_lt.mpr new.2)

theorem Branches.own_eq_iff (name : Text) : a.own v name = v ↔ b.own w name = w := by
  by_cases below : w.isBelow base.size
  · rw [alike.eq_of_below below, branches.left.own branches.closed below,
      branches.right.own branches.closed below]
  · have fresh : ¬ v.isBelow base.size := fun inside => below (alike.isBelow_iff.mp inside)
    exact iff_of_false ((alike.own_ne name).1 fresh) ((alike.own_ne name).2 below)

omit branches in
theorem Alike.truth : v.truth = w.truth := by
  cases alike <;> rfl

theorem Branches.markedKind? : a.markedKind? v = b.markedKind? w := by
  cases alike with
  | @same v below =>
    cases v with
    | ref r =>
      have inside := of_decide_eq_true below
      simp only [Heap.markedKind?, branches.left.same r inside, branches.right.same r inside]
    | constructor c => cases c <;> rfl
    | _ => rfl
  | list new left right => simp only [Heap.markedKind?, left, right, Cell.mark?]
  | mapping new left right => simp only [Heap.markedKind?, left, right, Cell.mark?]
  | _ => rfl

theorem Branches.plainKind : a.plainKind v = b.plainKind w := by
  cases alike with
  | @same v below =>
    cases v with
    | ref r =>
      have inside := of_decide_eq_true below
      simp only [Heap.plainKind, branches.left.same r inside, branches.right.same r inside]
    | _ => rfl
  | list new left right => simp only [Heap.plainKind, left, right]
  | mapping new left right => simp only [Heap.plainKind, left, right]
  | _ => rfl

omit alike in
theorem Branches.kindWithin (depth : Nat) {v w : Value} (alike : Alike base.size a b v w) :
    a.kindWithin depth v = b.kindWithin depth w := by
  induction depth generalizing v w with
  | zero => rfl
  | succ depth hypothesis =>
    have members : a.memberTruthWithin depth v = b.memberTruthWithin depth w := by
      funext name
      have member := branches.own alike name
      unfold memberTruthWithin
      rw [hypothesis member]
      cases decided : b.kindWithin depth (b.own w name) with
      | none => rfl
      | some kind =>
        have left := truth_of_kindWithin ((hypothesis member).trans decided)
        have right := truth_of_kindWithin decided
        simp only [Option.bind_eq_bind, Option.bind_some, left, right, member.truth]
    have marks := branches.markedKind? alike
    cases marked : b.markedKind? w with
    | some kind =>
      rw [kindWithin_of_marked (marks.trans marked), kindWithin_of_marked marked]
    | none =>
      by_cases window : b.own w (Text.of "window") = w
      · have other := (branches.own_eq_iff alike (Text.of "window")).mpr window
        simp only [Heap.kindWithin, marks, marked, window, other, if_true]
      · have other := mt (branches.own_eq_iff alike (Text.of "window")).mp window
        rw [kindWithin_of_unmarked (marks.trans marked) other, kindWithin_of_unmarked marked window,
          members, branches.plainKind alike]

theorem Branches.kind? : a.kind? v = b.kind? w := by
  ext kind
  simp only [kind?_eq_some_iff, branches.kindWithin _ alike]

theorem Branches.classify : a.classify v = b.classify w := by
  simp only [Heap.classify, branches.kind? alike]

theorem Branches.isTruthy : a.isTruthy v = b.isTruthy w := by
  unfold Heap.isTruthy truth?
  rw [branches.kind? alike]
  cases found : b.kind? w with
  | none => rfl
  | some kind =>
    have left := truth_of_kindWithin ((branches.kind? alike).trans found)
    have right := truth_of_kindWithin found
    simp only [Option.map_some, left, right, alike.truth]

theorem Branches.object : Guard.object a v = Guard.object b w := by
  simp only [Guard.object, branches.classify alike]

omit branches in
theorem Alike.memberName : Guard.memberName v = Guard.memberName w := by
  cases alike <;> rfl

end Members

inductive AnswerAlike (old : Nat) (a b : Heap) : Except Error Value → Except Error Value → Prop where
  | ok {v w : Value} (alike : Alike old a b v w) : AnswerAlike old a b (.ok v) (.ok w)
  | error (failure : Error) : AnswerAlike old a b (.error failure) (.error failure)

def IsStrange (h : Heap) (old : Nat) (key : Value) : Prop :=
  (∃ r, key = .ref r ∧ h.key? key = none) ∨ ∃ m, key = .method m ∧ ¬ m.isBelow old

private theorem Alike.isStrange (alike : Alike base.size a b v w) (new : ¬ w.isBelow base.size) :
    a.IsStrange base.size v ∧ b.IsStrange base.size w := by
  cases alike with
  | same below => exact absurd below new
  | list both left right =>
    exact ⟨.inl ⟨_, rfl, by simp only [key?, keyWithin, left]⟩,
      .inl ⟨_, rfl, by simp only [key?, keyWithin, right]⟩⟩
  | mapping both left right =>
    exact ⟨.inl ⟨_, rfl, by simp only [key?, keyWithin, left]⟩,
      .inl ⟨_, rfl, by simp only [key?, keyWithin, right]⟩⟩
  | method both =>
    exact ⟨.inr ⟨_, rfl, by simpa [Method.isBelow] using both.1⟩, .inr ⟨_, rfl, new⟩⟩

theorem positionedMember_of_isStrange {α : Type} {key : Value} {old : Nat} (strange : h.IsStrange old key)
    (container : Value) (each : List α) (shape : α → Value) :
    h.positionedMember container each shape key = .ok .null := by
  rcases strange with ⟨r, rfl, _⟩ | ⟨m, rfl, _⟩ <;> rfl

theorem getMember_of_isStrange {key : Value} {old : Nat} (strange : h.IsStrange old key)
    (plain : ∀ entries, h.entries? container = some entries → entries.KeysBelow old) :
    h.getMember container key = .ok .null := by
  have named (container : Value) : h.namedMember container key = .null := by
    rcases strange with ⟨r, rfl, _⟩ | ⟨m, rfl, _⟩ <;> rfl
  unfold getMember
  split
  · rfl
  · exact positionedMember_of_isStrange strange _ _ _
  · split
    · next entries isMapping =>
      have absent : (h.key? key).bind entries.find? = none := by
        rcases strange with ⟨r, rfl, unhashable⟩ | ⟨m, rfl, new⟩
        · rw [unhashable]
          rfl
        · cases looked : Table.lookup [.method m] entries with
          | none => simp [key?, keyWithin, Entries.find?, looked]
          | some entry =>
            have below := plain entries isMapping _ (Table.mem_of_lookup looked)
            simp [KeyPart.isBelow, new] at below
      rw [absent]
      rfl
    · exact positionedMember_of_isStrange strange _ _ _
    · rw [named]

theorem itemAt_related {alike : Value → Value → Prop} {items others : List Value} (null : alike .null .null)
    (each : List.Forall₂ alike items others) (position : Int) :
    alike (itemAt items id position) (itemAt others id position) := by
  have same : items.length = others.length := each.length_eq
  unfold itemAt
  split
  · exact null
  · by_cases inside : position.toNat < items.length
    · have also : position.toNat < others.length := same ▸ inside
      rw [List.getElem?_eq_getElem inside, List.getElem?_eq_getElem also]
      exact each.get inside also
    · rw [List.getElem?_eq_none (Nat.le_of_not_lt inside),
        List.getElem?_eq_none (same ▸ Nat.le_of_not_lt inside)]
      exact null

theorem keysBelow_of_paired (paired : PairedEntries related entries others) {bound : Nat} :
    entries.KeysBelow bound ↔ others.KeysBelow bound := by
  induction paired with
  | nil => exact Iff.rfl
  | cons head _ hypothesis =>
    unfold Entries.KeysBelow at hypothesis ⊢
    rw [List.forall_mem_cons, List.forall_mem_cons, head.1.1, hypothesis]

section Members

variable (branches : Branches base a b) (alike : Alike base.size a b container like)

include branches alike

private theorem Branches.keysBelow :
    (∀ entries, a.entries? container = some entries → entries.KeysBelow base.size) ∧
      ∀ entries, b.entries? like = some entries → entries.KeysBelow base.size := by
  have old {entries : Entries} (below : entries.areBelow base.size) : entries.KeysBelow base.size := by
    intro entry member
    have inside := List.all_eq_true.mp below entry member
    simp only [Bool.and_eq_true] at inside
    exact inside.1.1
  cases alike with
  | same below =>
    rw [branches.left.entries? below, branches.right.entries? below]
    exact ⟨fun _ found => old (branches.closed.entries found),
      fun _ found => old (branches.closed.entries found)⟩
  | list new left right => simp [Heap.entries?, left, right]
  | mapping new left right plain length keys each =>
    have paired : PairedEntries (Alike base.size a b) _ _ :=
      List.forall₂_iff_zip.mpr ⟨length, fun member => ⟨keys _ member, each _ member⟩⟩
    simpa [Heap.entries?, left, right] using And.intro plain ((keysBelow_of_paired paired).mp plain)
  | method => simp [Heap.entries?]

theorem Branches.getMember_of_below {key : Value} (below : key.isBelow base.size) :
    AnswerAlike base.size a b (a.getMember container key) (b.getMember like key) := by
  have named (left : a.entries? container = none) (right : b.entries? like = none) :
      Alike base.size a b (a.namedMember container key) (b.namedMember like key) := by
    unfold namedMember
    split
    · next name _ =>
      have own := branches.own alike name
      simpa only [Heap.own, left, right] using own
    · exact .same rfl
  cases alike with
  | same inside =>
    rw [branches.left.getMember branches.closed inside below,
      branches.right.getMember branches.closed inside below]
    cases found : base.getMember container key with
    | ok member => exact .ok (.same (branches.closed.getMember inside found))
    | error failure => exact .error failure
  | @list r s items others new left right length each =>
    have pairs : List.Forall₂ (Alike base.size a b) items others :=
      List.forall₂_iff_zip.mpr ⟨length, fun member => each _ member⟩
    have first : a.entries? (.ref r) = none := by simp only [Heap.entries?, left]
    have second : b.entries? (.ref s) = none := by simp only [Heap.entries?, right]
    have firstItems : a.items? (.ref r) = some items := by simp only [Heap.items?, left]
    have secondItems : b.items? (.ref s) = some others := by simp only [Heap.items?, right]
    simp only [Heap.getMember, first, second, firstItems, secondItems, positionedMember]
    cases key.position? with
    | error failure => exact .error failure
    | ok position =>
      cases position with
      | some position => exact .ok (itemAt_related (.same rfl) pairs position)
      | none =>
        by_cases isLength : key.plain = .text (Text.of "length")
        · simp only [isLength, if_true, length]
          exact .ok (.same rfl)
        · simp only [isLength, if_false]
          exact .ok (named first second)
  | @mapping r s entries others new left right plain length keys each =>
    have paired : PairedEntries (Alike base.size a b) entries others :=
      List.forall₂_iff_zip.mpr ⟨length, fun member => ⟨keys _ member, each _ member⟩⟩
    have first : a.entries? (.ref r) = some entries := by simp only [Heap.entries?, left]
    have second : b.entries? (.ref s) = some others := by simp only [Heap.entries?, right]
    simp only [Heap.getMember, first, second, branches.left.key? branches.closed below,
      branches.right.key? branches.closed below]
    cases base.key? key with
    | none => exact .ok (.same rfl)
    | some hashed => exact .ok (related_of_lookup (.same rfl) (lookup_paired paired hashed))
  | method => exact .ok (named rfl rfl)

theorem Branches.getMember {key other : Value} (keys : Alike base.size a b key other) :
    AnswerAlike base.size a b (a.getMember container key) (b.getMember like other) := by
  by_cases below : other.isBelow base.size
  · rw [keys.eq_of_below below]
    exact branches.getMember_of_below alike below
  · obtain ⟨left, right⟩ := keys.isStrange below
    obtain ⟨plain, plainLike⟩ := branches.keysBelow alike
    rw [getMember_of_isStrange left plain, getMember_of_isStrange right plainLike]
    exact .ok (.same rfl)

omit alike in
theorem Branches.hasMember {locals : Value} (below : locals.isBelow base.size) (name : Text) :
    a.hasMember locals name = b.hasMember locals name := by
  simp only [Heap.hasMember, branches.isTruthy (.same below), branches.left.entries? below,
    branches.right.entries? below, branches.left.attribute? branches.closed below,
    branches.right.attribute? branches.closed below]

end Members

end GuardedExpr.Heap

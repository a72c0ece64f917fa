import GuardedExpr.Proofs.Heap.HeapCopies
import GuardedExpr.Proofs.Node.TreeTraits
import GuardedExpr.Proofs.Route.RouteRuns

/-!
Assignments alongside each other. Two of them that start at copies, in memories that have nothing in common, read the
same way along the same names: what they come across are copies, or objects that both have just made. Both fail with
the same error, or both end.
-/

namespace GuardedExpr

variable {α β γ δ : Type} {a b : Heap} {c d v w : Value} {r s : Ref} {name : Text} {entries others : Entries}

namespace Heap

inductive Peers (a b : Heap) : Value → Value → Prop where
  | copies {c d : Value} (copies : Copies a b c d) : Peers a b c d
  | mappings {r s : Ref} {entries others : Entries} (left : a.cell r = .mapping .plain entries)
      (right : b.cell s = .mapping .plain others) : Peers a b (.ref r) (.ref s)

theorem Peers.grow {later further : Heap} (peers : Peers a b c d) (left : a.Grows later) (right : b.Grows further) :
    Peers later further c d := by
  cases peers with
  | copies copies => exact .copies (copies.grow left right)
  | mappings one other =>
    exact .mappings ((left.same _ (inside_of_mapping one)).trans one)
      ((right.same _ (inside_of_mapping other)).trans other)

theorem setMember_eq_of_no_container (container : ∀ r, c ≠ .ref r) (name : Text) (v : Value) :
    a.setMember c (.text name) v =
      a.classify c >>= fun _ => .error (.unsettableProperty name.quoted (empty.describe c)) := by
  have described : a.describe c = empty.describe c := by
    cases c with
    | ref r => exact absurd rfl (container r)
    | primitive p => cases p <;> rfl
    | method m => cases m <;> rfl
    | _ => rfl
  have same : a.unsettable c (.text name) = .unsettableProperty name.quoted (empty.describe c) := by
    rw [← described]
    rfl
  have nothing : a.setAttribute? c name v = none := by
    cases c with
    | ref r => exact absurd rfl (container r)
    | _ => rfl
  have named : a.setMember c (.text name) v = a.setNamed c (.text name) v := by
    cases c with
    | ref r => exact absurd rfl (container r)
    | _ => rfl
  rw [named, setNamed]
  refine bind_congr fun kind => ?_
  simp only [nothing, same]
  split <;> rfl

theorem setMember_of_list {items : List Value} (content : a.cell r = .list items) (word : Lexeme.IsName name)
    (v : Value) :
    a.setMember (.ref r) (.text name) v = .error (.unsettableIndex name.quoted) := by
  simp only [setMember, content, setItem, Value.position?_of_isName word]
  rfl

theorem setMember_of_mapping (content : a.cell r = .mapping .plain entries) (name : Text) (v : Value) :
    a.setMember (.ref r) (.text name) v =
      .ok (a.put r (.mapping .plain (entries.set [.text name] (.text name) v))) := by
  simp only [setMember, content]
  rfl

/-- Both can be written to, as they are objects, or neither can, for the same reason. -/
theorem Peers.setMember (peers : Peers a b c d) (word : Lexeme.IsName name) (v w : Value) :
    (∃ failure, a.setMember c (.text name) v = .error failure ∧ b.setMember d (.text name) w = .error failure) ∨
      ∃ r s entries others, c = .ref r ∧ d = .ref s ∧ a.cell r = .mapping .plain entries ∧
        b.cell s = .mapping .plain others := by
  cases peers with
  | mappings left right => exact .inr ⟨_, _, _, _, rfl, rfl, left, right⟩
  | copies copies =>
    have refused (container : ∀ r, c ≠ .ref r) (other : ∀ r, d ≠ .ref r) (same : empty.describe c = empty.describe d) :
        ∃ failure, a.setMember c (.text name) v = .error failure ∧ b.setMember d (.text name) w = .error failure := by
      rw [setMember_eq_of_no_container container, setMember_eq_of_no_container other, same,
        (branches_empty a b).classify copies]
      cases b.classify d with
      | error failure => exact ⟨failure, rfl, rfl⟩
      | ok kind => exact ⟨_, rfl, rfl⟩
    cases copies with
    | same below =>
      have container (r : Ref) : c ≠ .ref r := by
        rintro rfl
        exact absurd (of_decide_eq_true below : r < empty.size) (Nat.not_lt_zero r)
      exact .inl (refused container container rfl)
    | list _ left right => exact .inl ⟨_, setMember_of_list left word v, setMember_of_list right word w⟩
    | mapping _ left right => exact .inr ⟨_, _, _, _, rfl, rfl, left, right⟩
    | method => exact .inl (refused nofun nofun rfl)

theorem Peers.inside (peers : Peers a b (.ref r) (.ref s)) : r < a.size ∧ s < b.size := by
  cases peers with
  | mappings left right => exact ⟨inside_of_mapping left, inside_of_mapping right⟩
  | copies copies =>
    cases copies with
    | same below => exact absurd (of_decide_eq_true below : r < empty.size) (Nat.not_lt_zero r)
    | list _ left right => exact ⟨inside_of_list left, inside_of_list right⟩
    | mapping _ left right => exact ⟨inside_of_mapping left, inside_of_mapping right⟩

end Heap

open Heap

namespace Reading

def Alongside (first : Reading α) (second : Reading β) (a b : Heap) (related : α → Heap → β → Heap → Prop) : Prop :=
  (∃ v later w further, first.run a = .ok (v, later) ∧ second.run b = .ok (w, further) ∧ related v later w further) ∨
    ∃ failure, first.run a = .error failure ∧ second.run b = .error failure

theorem run_write_of_error {key : Value} {failure : Error} (failed : a.setMember c key v = .error failure) :
    (write c key v).run a = .error failure := by
  change (do return ((), ← a.setMember c key v) : Except Error (Unit × Heap)) = _
  rw [failed]
  rfl

namespace Alongside

variable {first : Reading α} {second : Reading β} {related weaker : α → Heap → β → Heap → Prop}
  {further : γ → Heap → δ → Heap → Prop} {next : α → Reading γ} {also : β → Reading δ}

theorem mono (here : Alongside first second a b related)
    (implies : ∀ v a w b, related v a w b → weaker v a w b) : Alongside first second a b weaker := by
  rcases here with ⟨v, later, w, last, left, right, holds⟩ | failed
  · exact .inl ⟨v, later, w, last, left, right, implies _ _ _ _ holds⟩
  · exact .inr failed

theorem pure {v : α} {w : β} (holds : related v a w b) :
    Alongside (Pure.pure v : Reading α) (Pure.pure w : Reading β) a b related :=
  .inl ⟨v, a, w, b, rfl, rfl, holds⟩

theorem bind (here : Alongside first second a b related)
    (there : ∀ v later w last, related v later w last → Alongside (next v) (also w) later last further) :
    Alongside (first >>= next) (second >>= also) a b further := by
  rcases here with ⟨v, later, w, last, left, right, holds⟩ | ⟨failure, left, right⟩
  · rw [Alongside, bind_run_ok left, bind_run_ok right]
    exact there v later w last holds
  · exact .inr ⟨failure, bind_run_error left, bind_run_error right⟩

theorem map {f : α → γ} {g : β → δ} (here : Alongside first second a b related)
    (there : ∀ v later w last, related v later w last → further (f v) later (g w) last) :
    Alongside (f <$> first) (g <$> second) a b further := by
  rw [map_eq_pure_bind, map_eq_pure_bind]
  exact here.bind fun v later w last holds => .pure (there v later w last holds)

theorem ask {question : Heap → Except Error α} {other : Heap → Except Error α} (same : question a = other b) :
    Alongside (Reading.ask question) (Reading.ask other) a b fun v later w last => v = w ∧ later = a ∧ last = b := by
  rw [Alongside, ask_run, ask_run, same]
  cases other b with
  | ok answer => exact .inl ⟨answer, a, answer, b, rfl, rfl, rfl, rfl, rfl⟩
  | error failure => exact .inr ⟨failure, rfl, rfl⟩

private theorem ask_alike {question other : Heap → Except Error Value}
    (answers : AnswerAlike empty.size a b (question a) (other b)) :
    Alongside (Reading.ask question) (Reading.ask other) a b fun v later w last =>
      Copies a b v w ∧ later = a ∧ last = b := by
  rw [Alongside, ask_run, ask_run]
  generalize question a = one at answers
  generalize other b = another at answers
  cases answers with
  | ok alike => exact .inl ⟨_, a, _, b, rfl, rfl, alike, rfl, rfl⟩
  | error failure => exact .inr ⟨failure, rfl, rfl⟩

theorem guarded (copies : Copies a b v w) :
    Alongside (Reading.guarded v) (Reading.guarded w) a b fun found later other last =>
      found = v ∧ other = w ∧ later = a ∧ last = b := by
  refine (ask ((branches_empty a b).object copies)).bind ?_
  rintro _ _ _ _ ⟨-, rfl, rfl⟩
  exact .pure ⟨rfl, rfl, rfl, rfl⟩

theorem member_of_copies (copies : Copies a b c d) (name : Text) :
    Alongside (Reading.ask fun h => h.getMember c (.text name)) (Reading.ask fun h => h.getMember d (.text name)) a b
      fun v later w last => Copies a b v w ∧ later = a ∧ last = b :=
  ask_alike ((branches_empty a b).getMember copies (.same rfl))

theorem isTruthy_of_copies (copies : Copies a b c d) :
    Alongside (Reading.ask fun h => h.isTruthy c) (Reading.ask fun h => h.isTruthy d) a b
      fun v later w last => v = w ∧ later = a ∧ last = b :=
  ask ((branches_empty a b).isTruthy copies)

theorem isFalse (copies : Copies a b c d) (name : Text) :
    Alongside (Reading.isFalse c (.text name)) (Reading.isFalse d (.text name)) a b
      fun v later w last => v = w ∧ later = a ∧ last = b := by
  refine (member_of_copies copies name).bind ?_
  rintro v _ w _ ⟨copies, rfl, rfl⟩
  refine (isTruthy_of_copies copies).bind ?_
  rintro truth _ _ _ ⟨rfl, rfl, rfl⟩
  exact .pure ⟨rfl, rfl, rfl⟩

theorem write (peers : Peers a b c d) (word : Lexeme.IsName name) :
    Alongside (Reading.write c (.text name) v) (Reading.write d (.text name) w) a b fun _ later _ last =>
      ∃ r s entries others, c = .ref r ∧ d = .ref s ∧ a.cell r = .mapping .plain entries ∧
        b.cell s = .mapping .plain others ∧
        later = a.put r (.mapping .plain (entries.set [.text name] (.text name) v)) ∧
        last = b.put s (.mapping .plain (others.set [.text name] (.text name) w)) := by
  rcases peers.setMember word v w with ⟨failure, left, right⟩ | ⟨r, s, entries, others, rfl, rfl, left, right⟩
  · exact .inr ⟨failure, run_write_of_error left, run_write_of_error right⟩
  · exact .inl ⟨(), _, (), _, write_eq_ok.mpr (setMember_of_mapping left name v),
      write_eq_ok.mpr (setMember_of_mapping right name w), r, s, entries, others, rfl, rfl, left, right, rfl, rfl⟩

theorem create (peers : Peers a b c d) (word : Lexeme.IsName name) :
    Alongside (Reading.create c (.text name)) (Reading.create d (.text name)) a b fun _ later _ last =>
      ∃ r s entries others, c = .ref r ∧ d = .ref s ∧ a.cell r = .mapping .plain entries ∧
        b.cell s = .mapping .plain others ∧ later = a.withCreated r .plain entries name ∧
        last = b.withCreated s .plain others name := by
  have written : Alongside (Reading.write c (.text name) (.ref a.size)) (Reading.write d (.text name) (.ref b.size))
      (a.alloc (.mapping .plain [])).2 (b.alloc (.mapping .plain [])).2 _ :=
    write (peers.grow (a.grows_alloc _) (b.grows_alloc _)) word
  refine mono written ?_
  rintro _ _ _ _ ⟨r, s, entries, others, rfl, rfl, left, right, rfl, rfl⟩
  obtain ⟨inside, also⟩ := peers.inside
  rw [cell_alloc_old _ _ inside] at left
  rw [cell_alloc_old _ _ also] at right
  exact ⟨r, s, entries, others, rfl, rfl, left, right, rfl, rfl⟩

theorem access (copies : Copies a b c d) (word : Lexeme.IsName name) :
    Alongside (Reading.access true c (.text name)) (Reading.access true d (.text name)) a b fun v later w last =>
      Copies later last v w ∧ Peers later last c d := by
  have supplied : Alongside (supply true (Reading.isFalse c (.text name)) c (.text name))
      (supply true (Reading.isFalse d (.text name)) d (.text name)) a b fun _ later _ last =>
        (later = a ∧ last = b) ∨ ∃ r s entries others, c = .ref r ∧ d = .ref s ∧ a.cell r = .mapping .plain entries ∧
          b.cell s = .mapping .plain others ∧ later = a.withCreated r .plain entries name ∧
          last = b.withCreated s .plain others name := by
    refine (isFalse copies name).bind ?_
    rintro lacks _ _ _ ⟨rfl, rfl, rfl⟩
    cases lacks with
    | false => exact .pure (.inl ⟨rfl, rfl⟩)
    | true => exact (create (.copies copies) word).mono fun _ _ _ _ => .inr
  refine supplied.bind ?_
  rintro _ _ _ _ (⟨rfl, rfl⟩ | ⟨r, s, entries, others, rfl, rfl, left, right, rfl, rfl⟩)
  · refine (isTruthy_of_copies copies).bind ?_
    rintro truth _ _ _ ⟨rfl, rfl, rfl⟩
    cases truth with
    | false => exact .pure ⟨.same rfl, .copies copies⟩
    | true =>
      refine (member_of_copies copies name).bind ?_
      rintro v _ w _ ⟨found, rfl, rfl⟩
      refine (guarded found).mono ?_
      rintro _ _ _ _ ⟨rfl, rfl, rfl, rfl⟩
      exact ⟨found, .copies copies⟩
  · refine .inl ⟨_, _, _, _, run_created left name (copies.not_isEndless_withCreated left name),
      run_created right name (Copies.not_isEndless_withCreated copies.symm right name), ?_, ?_⟩
    · exact .of_empty (cell_withCreated_new left name) (cell_withCreated_new right name)
    · exact .mappings (cell_withCreated_same left name) (cell_withCreated_same right name)

theorem member (copies : Copies a b c d) (word : Lexeme.IsName name) :
    Alongside (Reading.member true (.text name) c) (Reading.member true (.text name) d) a b
      fun found later other last =>
      Copies later last found.2 other.2 ∧ Peers later last found.1 other.1 := by
  have checked : Alongside (Reading.ask fun _ => Guard.memberName (.text name))
      (Reading.ask fun _ => Guard.memberName (.text name)) a b _ := ask rfl
  refine checked.bind ?_
  rintro _ _ _ _ ⟨-, rfl, rfl⟩
  exact (access copies word).bind fun _ _ _ _ both => .pure both

end Alongside

def make (builder : Builder α) : Reading α := fun h =>
  .ok ((builder h.size).made, h.adding (builder h.size))

def walk (start : Reading Value) (names : List Text) : Reading Value :=
  (names.map Value.text).foldl (fun subject key => Prod.snd <$> (subject >>= member true key)) start

def assignBehind (start : Reading Value) (names : List Text) (last : Text) (builder : Builder Value) :
    Reading Value := do
  let found ← walk start names >>= member true (.text last)
  let value ← make builder
  store found.1 (.text last) value

theorem grows_adding (h : Heap) (product : Product Value) : h.Grows (h.adding product) where
  grown := by
    rw [Heap.size_adding]
    exact Nat.le_add_right _ _
  same := fun _ inside => Heap.cell_adding_old product inside

/-- The picture of a value that was built is the same when something that is older was written to. -/
theorem picture_of_put {node : Node} (constant : node.isConstant) (regular : node.isRegular) (old : r < a.size)
    (c : Cell) :
    ((a.adding (node.build a.size)).put r c).picture (node.build a.size).made = node.portrait := by
  refine Node.picture_of_build constant regular (size_put _ _ _).ge fun q later _ => ?_
  exact cell_put_other _ _ (old.trans_le later).ne'

namespace Alongside

variable {first second : Reading Value} {names : List Text} {last : Text} {node : Node}

theorem walk (here : Alongside first second a b fun v later w further => Copies later further v w)
    (words : ∀ name ∈ names, Lexeme.IsName name) :
    Alongside (walk first names) (walk second names) a b fun v later w further => Copies later further v w := by
  induction names generalizing first second with
  | nil => exact here
  | cons name names ih =>
    obtain ⟨word, rest⟩ := List.forall_mem_cons.mp words
    refine ih (map (here.bind fun _ _ _ _ copies => member copies word) ?_) rest
    exact fun _ _ _ _ both => both.1

theorem store (peers : Peers a b c d) (word : Lexeme.IsName name) (constant : node.isConstant)
    (regular : node.isRegular) :
    Alongside (make node.build >>= fun v => store c (.text name) v)
      (make node.build >>= fun w => store d (.text name) w)
      a b fun v later w further => later.picture v = node.portrait ∧ further.picture w = node.portrait := by
  have made : Alongside (make node.build) (make node.build) a b fun v later w further =>
      (v = (node.build a.size).made ∧ w = (node.build b.size).made) ∧
        later = a.adding (node.build a.size) ∧ further = b.adding (node.build b.size) :=
    .inl ⟨_, _, _, _, rfl, rfl, ⟨rfl, rfl⟩, rfl, rfl⟩
  refine made.bind ?_
  rintro _ _ _ _ ⟨⟨rfl, rfl⟩, rfl, rfl⟩
  have copies : Copies (a.adding (node.build a.size)) (b.adding (node.build b.size)) (node.build a.size).made
      (node.build b.size).made :=
    Node.copies_build node constant regular contains_adding contains_adding
  refine (guarded copies).bind ?_
  rintro _ _ _ _ ⟨rfl, rfl, rfl, rfl⟩
  refine (write (peers.grow (grows_adding a _) (grows_adding b _)) word).bind ?_
  rintro _ _ _ _ ⟨r, s, entries, others, rfl, rfl, -, -, rfl, rfl⟩
  obtain ⟨inside, also⟩ := peers.inside
  exact .pure ⟨picture_of_put constant regular inside _, picture_of_put constant regular also _⟩

theorem assignBehind (here : Alongside first second a b fun v later w further => Copies later further v w)
    (words : ∀ name ∈ names, Lexeme.IsName name) (word : Lexeme.IsName last) (constant : node.isConstant)
    (regular : node.isRegular) :
    Alongside (assignBehind first names last node.build) (assignBehind second names last node.build) a b
      fun v later w further => later.picture v = node.portrait ∧ further.picture w = node.portrait :=
  ((here.walk words).bind fun _ _ _ _ copies => member copies word).bind fun _ _ _ _ both =>
    store both.2 word constant regular

end Alongside

/-! Where an assignment comes to something false, it fails, and where it comes to an empty object, it goes through. -/

private theorem walk_falsy {start : Reading Value} {names : List Text}
    (falsy : ∀ v later, start.run a = .ok (v, later) → v.truth = false) :
    ∀ v later, (walk start names).run a = .ok (v, later) → v.truth = false := by
  induction names generalizing start with
  | nil => exact falsy
  | cons name names ih =>
    refine ih fun v later read => ?_
    obtain ⟨found, went, rfl⟩ := map_eq_ok.mp read
    obtain ⟨c, middle, begun, stepped⟩ := bind_eq_ok.mp went
    exact (member_of_falsy (falsy c middle begun) stepped).2

theorem not_ok_of_falsy {start : Reading Value} {names : List Text} {last : Text} {builder : Builder Value}
    (falsy : ∀ v later, start.run a = .ok (v, later) → v.truth = false) (v : Value) (later : Heap) :
    (assignBehind start names last builder).run a ≠ .ok (v, later) := by
  intro read
  obtain ⟨found, middle, went, read⟩ := bind_eq_ok.mp read
  obtain ⟨c, before, walked, stepped⟩ := bind_eq_ok.mp went
  obtain ⟨value, further, -, stored⟩ := bind_eq_ok.mp read
  have nothing := walk_falsy falsy c before walked
  rw [(member_of_falsy nothing stepped).1] at stored
  obtain ⟨kept, _, -, stored⟩ := bind_eq_ok.mp stored
  obtain ⟨_, _, written, -⟩ := bind_eq_ok.mp stored
  obtain ⟨r, _, rfl, -⟩ := exists_names_of_setMember (write_eq_ok.mp written)
  cases nothing

private theorem walk_making {start : Reading Value} {names : List Text}
    (begun : start.run a = .ok (.ref r, b))
    (empty : b.cell r = .mapping .plain []) (safe : ∀ name ∈ names, Guard.isSafeName name) :
    ∃ s later, (walk start names).run a = .ok (.ref s, later) ∧ later.cell s = .mapping .plain [] := by
  induction names generalizing start r b with
  | nil => exact ⟨r, b, begun, empty⟩
  | cons name names ih =>
    obtain ⟨here, rest⟩ := List.forall_mem_cons.mp safe
    have step := run_member_of_empty here empty
    refine ih (r := b.size) (b := b.withCreated r .plain [] name) ?_ (cell_withCreated_new empty name) rest
    rw [StateT.run_map, bind_run_ok begun, step]
    rfl

private theorem store_making {node : Node} (content : a.cell r = .mapping .plain entries)
    (name : Text)
    (constant : node.isConstant) (regular : node.isRegular)
    (accepted : Guard.object (Heap.empty.adding (node.build 0)) (node.build 0).made = .ok ()) :
    ∃ v later, (make node.build >>= fun v => store (.ref r) (.text name) v).run a = .ok (v, later) ∧
      later.picture v = node.portrait := by
  have room : r < a.size := inside_of_mapping content
  have copies : Copies (a.adding (node.build a.size)) (Heap.empty.adding (node.build 0)) (node.build a.size).made
      (node.build 0).made :=
    Node.copies_build node constant regular contains_adding contains_adding
  have built : (make node.build).run a = .ok ((node.build a.size).made, a.adding (node.build a.size)) := rfl
  have stored := store_eq_ok.mpr ⟨((branches_empty _ _).object copies).trans accepted, rfl,
    setMember_of_mapping ((cell_adding_old _ room).trans content) name (node.build a.size).made⟩
  exact ⟨_, _, (bind_run_ok built).trans stored, picture_of_put constant regular room _⟩

/-- Behind an empty object an assignment goes through, if what is assigned may be referred to. -/
theorem assignBehind_making {start : Reading Value} {names : List Text} {last : Text} {node : Node}
    (begun : start.run a = .ok (.ref r, b)) (empty : b.cell r = .mapping .plain [])
    (safe : ∀ name ∈ names, Guard.isSafeName name) (safeLast : Guard.isSafeName last) (constant : node.isConstant)
    (regular : node.isRegular)
    (accepted : Guard.object (Heap.empty.adding (node.build 0)) (node.build 0).made = .ok ()) :
    ∃ v later, (assignBehind start names last node.build).run a = .ok (v, later) ∧ later.picture v = node.portrait := by
  obtain ⟨s, g, walked, nothing⟩ := walk_making begun empty safe
  have reached : (Reading.walk start names >>= member true (.text last)).run a =
      .ok ((.ref s, .ref g.size), g.withCreated s .plain [] last) := by
    rw [bind_run_ok walked, run_member_of_empty safeLast nothing]
  rw [Reading.assignBehind, bind_run_ok reached]
  exact store_making (cell_withCreated_same nothing last) last constant regular accepted

end Reading

end GuardedExpr

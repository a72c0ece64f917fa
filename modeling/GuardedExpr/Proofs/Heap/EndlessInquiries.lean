import GuardedExpr.Heap.Member
import GuardedExpr.Proofs.Run.RunConfinement
import Mathlib.Data.Finset.Card
import Mathlib.Data.Finset.Range
import Mathlib.Logic.Relation

/-!
When the question for the kind of a value has an end. To tell a node of the document by its shape, the kinds
of some members are asked for in turn. The values asked for are known beforehand, because the truth of a
value is known before its kind is; so what decides is a relation between values, and the question ends
exactly if no cycle of that relation is reached. There is room in the depth of the search for every heap.
-/

namespace GuardedExpr

def Value.truth : Value → Bool
  | .null => false
  | .bool b => b
  | .int n => n != 0
  | .float x => !x.isZero && !x.isNaN
  | .text t => !t.isEmpty
  | .derived _ scalar => scalar.truth
  | _ => true

namespace Heap

variable {h : Heap} {v w : Value} {kind : Kind} {depth : Nat}

private theorem truth_plainKind (unmarked : h.markedKind? v = none) :
    (h.plainKind v).truth v = v.truth := by
  cases v with
  | ref r =>
    simp only [plainKind]
    split <;> rfl
  | constructor c => rfl
  | primitive p => rfl
  | method m => rfl
  | _ => cases unmarked

private theorem truth_markedKind (marked : h.markedKind? v = some kind) :
    kind.truth v = v.truth := by
  cases v with
  | ref r =>
    simp only [markedKind?, Cell.mark?] at marked
    split at marked <;> cases marked <;> rfl
  | constructor c =>
    cases c <;> cases marked <;> rfl
  | primitive p =>
    simp only [markedKind?] at marked
    split at marked <;> cases marked
    rfl
  | method m => cases marked
  | derived cls scalar =>
    cases marked
    cases scalar <;> rfl
  | _ =>
    cases marked
    rfl

theorem truth_of_kindWithin (decided : h.kindWithin depth v = some kind) : kind.truth v = v.truth := by
  cases marked : h.markedKind? v with
  | some other =>
    cases depth with
    | zero => cases decided
    | succ depth =>
      rw [kindWithin_of_marked marked] at decided
      cases decided
      exact truth_markedKind marked
  | none =>
    have whole : v.truth = true := by
      cases v <;> first | rfl | cases marked
    rcases kind_of_unmarked marked decided with rfl | rfl | rfl
    · exact whole.symm
    · exact whole.symm
    · exact truth_plainKind marked

theorem truth_of_truth? {truth : Bool} (found : h.truth? v = some truth) : truth = v.truth := by
  obtain ⟨kind, decided, same⟩ := Option.map_eq_some_iff.mp found
  exact same.symm.trans (truth_of_kindWithin decided)

theorem truth_of_isTruthy {truth : Bool} (asked : h.isTruthy v = .ok truth) : truth = v.truth :=
  truth_of_truth? (ended_eq_ok.mp asked)

def askedNames (truth : Text → Bool) : List Text :=
  Text.of "children" ::
    if !truth (Text.of "children") then []
    else Text.of "nodeName" ::
      if truth (Text.of "nodeName") then []
      else Text.of "prop" ::
        if !truth (Text.of "prop") then []
        else Text.of "attr" :: if !truth (Text.of "attr") then [] else [Text.of "find"]

theorem isSome_bind_iff {question : Option Bool} {truth : Bool} {rest : Bool → Option Bool}
    (right : ∀ found, question = some found → found = truth) :
    (question >>= rest).isSome ↔ question.isSome ∧ (rest truth).isSome := by
  cases question with
  | none => simp
  | some found => simp [right found rfl]

theorem nodeShape_isSome_iff {answer : Text → Option Bool} {truth : Text → Bool}
    (right : ∀ name found, answer name = some found → found = truth name) :
    (nodeShape answer).isSome ↔ ∀ name ∈ askedNames truth, (answer name).isSome := by
  unfold nodeShape askedNames
  rw [isSome_bind_iff (right _), List.forall_mem_cons]
  apply and_congr_right'
  cases truth (Text.of "children") with
  | false => simp
  | true =>
    simp only [Bool.not_true, Bool.false_eq_true, if_false]
    rw [isSome_bind_iff (right _), List.forall_mem_cons]
    apply and_congr_right'
    cases truth (Text.of "nodeName") with
    | true => simp
    | false =>
      simp only [Bool.false_eq_true, if_false]
      rw [isSome_bind_iff (right _), List.forall_mem_cons]
      apply and_congr_right'
      cases truth (Text.of "prop") with
      | false => simp
      | true =>
        simp only [Bool.not_true, Bool.false_eq_true, if_false]
        rw [isSome_bind_iff (right _), List.forall_mem_cons]
        apply and_congr_right'
        cases truth (Text.of "attr") <;> simp

/-- The values whose truth is asked for to find the kind of a value. -/
def inquiries (h : Heap) (v : Value) : List Value :=
  if (h.markedKind? v).isSome || h.own v (Text.of "window") = v then []
  else (askedNames fun name => (h.own v name).truth).map (h.own v)

def Asks (h : Heap) (v w : Value) : Prop :=
  w ∈ h.inquiries v

def memberTruthWithin (h : Heap) (depth : Nat) (v : Value) (name : Text) : Option Bool := do
  let kind ← h.kindWithin depth (h.own v name)
  return kind.truth (h.own v name)

theorem kindWithin_of_unmarked (unmarked : h.markedKind? v = none)
    (elsewhere : h.own v (Text.of "window") ≠ v) :
    h.kindWithin (depth + 1) v = do
      let shaped ← nodeShape (h.memberTruthWithin depth v)
      return if shaped then .hostNode else h.plainKind v := by
  simp only [kindWithin, unmarked, elsewhere, if_false]
  rfl

theorem isSome_bind_pure {α β : Type} {question : Option α} {answer : α → β} :
    (question >>= fun found => pure (answer found)).isSome ↔ question.isSome := by
  cases question <;> simp

/-- The kind of a value is found if the kinds of all values that are asked for are found. -/
theorem kindWithin_succ_isSome_iff :
    (h.kindWithin (depth + 1) v).isSome ↔ ∀ w, h.Asks v w → (h.kindWithin depth w).isSome := by
  cases marked : h.markedKind? v with
  | some kind => simp [kindWithin_of_marked marked, Asks, inquiries, marked]
  | none =>
    by_cases window : h.own v (Text.of "window") = v
    · simp [kindWithin, Asks, inquiries, marked, window]
    · have right (name : Text) (found : Bool) (answered : h.memberTruthWithin depth v name = some found) :
          found = (h.own v name).truth := by
        obtain ⟨kind, decided, same⟩ := Option.bind_eq_some_iff.mp answered
        cases same
        exact truth_of_kindWithin decided
      rw [kindWithin_of_unmarked marked window, isSome_bind_pure, nodeShape_isSome_iff right]
      simp only [Asks, inquiries, marked, window, memberTruthWithin, isSome_bind_pure, Option.isSome_none,
        Bool.false_or, decide_false, Bool.false_eq_true, if_false, List.forall_mem_map]

/-- The questions about a value come back to one that is already open. -/
def IsEndless (h : Heap) (v : Value) : Prop :=
  ∃ w, Relation.ReflTransGen h.Asks v w ∧ Relation.TransGen h.Asks w w

theorem IsEndless.head (asks : h.Asks v w) (endless : h.IsEndless w) : h.IsEndless v := by
  obtain ⟨last, path, cycle⟩ := endless
  exact ⟨last, .head asks path, cycle⟩

theorem acc_of_kindWithin (found : (h.kindWithin depth v).isSome) : Acc (fun w v => h.Asks v w) v := by
  induction depth generalizing v with
  | zero => cases found
  | succ depth hypothesis =>
    constructor
    intro w asks
    exact hypothesis (kindWithin_succ_isSome_iff.mp found w asks)

theorem not_isEndless_of_acc (accessible : Acc (fun w v => h.Asks v w) v) : ¬ h.IsEndless v := by
  induction accessible with
  | intro v _ hypothesis =>
    rintro ⟨last, path, cycle⟩
    rcases Relation.ReflTransGen.cases_head path with rfl | ⟨next, asks, rest⟩
    · obtain ⟨next, asks, rest⟩ := Relation.TransGen.head'_iff.mp cycle
      exact hypothesis next asks ⟨v, rest, cycle⟩
    · exact hypothesis next asks ⟨last, rest, cycle⟩

private theorem own_of_no_container (container : ∀ r, v ≠ .ref r)
    (unmarked : h.markedKind? v = none)
    (name : Text) : h.own v name = .null := by
  cases v with
  | ref r => exact absurd rfl (container r)
  | constructor c => rfl
  | primitive p => rfl
  | method m => rfl
  | _ => cases unmarked

theorem unmarked_of_asks (asks : h.Asks v w) : h.markedKind? v = none ∧ ∃ name, w = h.own v name := by
  unfold Asks inquiries at asks
  split at asks
  · cases asks
  · next open_ =>
    obtain ⟨name, _, same⟩ := List.mem_map.mp asks
    simp only [Bool.or_eq_true, not_or, Bool.not_eq_true, Option.isSome_eq_false_iff,
      Option.isNone_iff_eq_none] at open_
    exact ⟨open_.1, name, same.symm⟩

theorem inside_of_asks (asks : h.Asks v w) (present : w ≠ .null) : ∃ r, v = .ref r ∧ r < h.size := by
  obtain ⟨unmarked, name, same⟩ := unmarked_of_asks asks
  cases v with
  | ref r =>
    refine ⟨r, rfl, ?_⟩
    by_contra outside
    rw [h.markedKind?_outside (Nat.le_of_not_lt outside)] at unmarked
    cases unmarked
  | _ =>
    rw [own_of_no_container (by simp) unmarked] at same
    exact absurd same present

theorem card_le_size {opened : Finset Ref} (inside : ∀ r ∈ opened, r < h.size) :
    opened.card ≤ h.size := by
  have within : opened ⊆ Finset.range h.size := fun r member => Finset.mem_range.mpr (inside r member)
  have room := Finset.card_le_card within
  rwa [Finset.card_range] at room

/-- As long as the questions do not come back, each of them is about a cell that none was asked about
before. -/
theorem exists_opened {opened : Finset Ref}
    (before : ∀ r ∈ opened, r < h.size ∧ Relation.TransGen h.Asks (.ref r) v) (ends : ¬ h.IsEndless v)
    (asks : h.Asks v w) (present : w ≠ .null) :
    ∃ wider : Finset Ref, wider.card = opened.card + 1 ∧
      ∀ r ∈ wider, r < h.size ∧ Relation.TransGen h.Asks (.ref r) w := by
  obtain ⟨r, rfl, inside⟩ := inside_of_asks asks present
  have new : r ∉ opened := by
    intro member
    exact ends ⟨_, .refl, (before r member).2⟩
  refine ⟨insert r opened, Finset.card_insert_of_notMem new, ?_⟩
  intro other member
  rcases Finset.mem_insert.mp member with rfl | earlier
  · exact ⟨inside, .single asks⟩
  · obtain ⟨stored, path⟩ := before other earlier
    exact ⟨stored, path.tail asks⟩

/-- The search is deep enough: it has a step for every cell, and two for what is no container. -/
theorem kindWithin_of_not_isEndless (room : Nat) (opened : Finset Ref)
    (before : ∀ r ∈ opened, r < h.size ∧ Relation.TransGen h.Asks (.ref r) v)
    (enough : h.size ≤ room + opened.card) (ends : ¬ h.IsEndless v) :
    (h.kindWithin (room + 2) v).isSome := by
  induction room generalizing v opened with
  | zero =>
    rw [kindWithin_succ_isSome_iff]
    intro w asks
    by_cases null : w = .null
    · rw [null]
      rfl
    · obtain ⟨wider, more, inside⟩ := exists_opened before ends asks null
      have bound := card_le_size fun r member => (inside r member).1
      omega
  | succ room hypothesis =>
    rw [kindWithin_succ_isSome_iff]
    intro w asks
    by_cases null : w = .null
    · rw [null]
      rfl
    · obtain ⟨wider, more, inside⟩ := exists_opened before ends asks null
      have left : h.size ≤ room + wider.card := by omega
      exact hypothesis wider inside left fun endless => ends (endless.head asks)

/-- The question for the kind of a value ends exactly if it does not come back to itself. -/
theorem kind?_isSome_iff : (h.kind? v).isSome ↔ ¬ h.IsEndless v := by
  constructor
  · exact fun found => not_isEndless_of_acc (acc_of_kindWithin found)
  · exact kindWithin_of_not_isEndless h.size ∅ (by simp) (by simp)

theorem kind?_eq_none_iff : h.kind? v = none ↔ h.IsEndless v := by
  rw [← Option.not_isSome_iff_eq_none, kind?_isSome_iff, not_not]

theorem object_of_isEndless (endless : h.IsEndless v) : Guard.object h v = .error (.fault .endless) := by
  unfold Guard.object classify
  rw [kind?_eq_none_iff.mpr endless]
  rfl

theorem acc_iff : Acc (fun w v => h.Asks v w) v ↔ ¬ h.IsEndless v :=
  ⟨not_isEndless_of_acc, fun ends => acc_of_kindWithin (kind?_isSome_iff.mpr ends)⟩

end Heap

inductive Guard.Ends {α : Type} : Except Error α → Prop where
  | answered (answer : α) : Ends (.ok answer)
  | refusedObject (reason : ObjectRefusal) : Ends (.error (.disallowedObject reason))
  | refusedFunction (reason : FunctionRefusal) : Ends (.error (.disallowedFunction reason))

namespace Heap

variable {h : Heap} {v : Value}

theorem ends_ended_iff {α : Type} {question : Option α} :
    Guard.Ends (ended question) ↔ question.isSome := by
  cases question with
  | none => exact ⟨nofun, nofun⟩
  | some answer => exact ⟨fun _ => rfl, fun _ => .answered answer⟩

theorem ends_bind_iff {α β : Type} {first : Except Error α} {next : α → Except Error β}
    (rest : ∀ answer, Guard.Ends (next answer)) : Guard.Ends (first >>= next) ↔ Guard.Ends first := by
  cases first with
  | ok answer => exact ⟨fun _ => .answered answer, fun _ => rest answer⟩
  | error failure =>
    have same : (Except.error failure >>= next) = .error failure := rfl
    rw [same]
    constructor
    · intro ends
      cases ends <;> constructor
    · intro ends
      cases ends <;> constructor

theorem ends_classify_iff : Guard.Ends (h.classify v) ↔ ¬ h.IsEndless v := by
  unfold classify
  rw [ends_ended_iff, kind?_isSome_iff]

private theorem ends_object_iff : Guard.Ends (Guard.object h v) ↔ ¬ h.IsEndless v := by
  unfold Guard.object
  rw [ends_bind_iff, ends_classify_iff]
  intro kind
  split
  · exact .refusedObject _
  · exact .answered ()

private theorem ends_function_iff : Guard.Ends (Guard.function h v) ↔ ¬ h.IsEndless v := by
  unfold Guard.function
  rw [ends_bind_iff, ends_classify_iff]
  intro kind
  split
  · exact .refusedFunction _
  · exact .answered ()

theorem ends_isTruthy_iff : Guard.Ends (h.isTruthy v) ↔ ¬ h.IsEndless v := by
  unfold isTruthy truth?
  rw [ends_ended_iff, Option.isSome_map, kind?_isSome_iff]

private theorem ends_hasMember_iff (name : Text) :
    Guard.Ends (h.hasMember v name) ↔ ¬ h.IsEndless v := by
  unfold hasMember
  rw [ends_bind_iff, ends_isTruthy_iff]
  intro truth
  split
  · exact .answered _
  · split <;> exact .answered _

/-- The chain of questions about a value is finite, and the guards of objects and functions and the questions
for its truth and its members all end, exactly if the questions do not come back to one that is still open. -/
theorem guards_end_iff (h : Heap) (v : Value) :
    (Acc (fun w v => h.Asks v w) v ↔ ¬ h.IsEndless v) ∧
      (Guard.Ends (Guard.object h v) ↔ ¬ h.IsEndless v) ∧
      (Guard.Ends (Guard.function h v) ↔ ¬ h.IsEndless v) ∧
      (Guard.Ends (h.isTruthy v) ↔ ¬ h.IsEndless v) ∧
      ∀ name, Guard.Ends (h.hasMember v name) ↔ ¬ h.IsEndless v :=
  ⟨acc_iff, ends_object_iff, ends_function_iff, ends_isTruthy_iff, ends_hasMember_iff⟩

def IsAcyclic (h : Heap) : Prop :=
  ∃ rank : Ref → Nat, ∀ r s name, h.own (.ref r) name = .ref s → rank s < rank r

theorem acc_null : Acc (fun w v => h.Asks v w) .null := by
  constructor
  intro w asks
  cases (unmarked_of_asks asks).1

theorem acc_of_no_container (container : ∀ r, v ≠ .ref r) : Acc (fun w v => h.Asks v w) v := by
  constructor
  intro w asks
  by_cases null : w = .null
  · rw [null]
    exact acc_null
  · obtain ⟨r, same, _⟩ := inside_of_asks asks null
    exact absurd same (container r)

def nested (name : String) : Heap :=
  ⟨#[.mapping .plain (Evaluator.named [(name, .ref 1)]), .mapping .plain []]⟩

private theorem isAcyclic_nested (name : String) : (nested name).IsAcyclic := by
  refine ⟨fun r => 1 - r, ?_⟩
  intro r s field same
  match r with
  | 0 =>
    change ((if _ then _ else none : Option (Value × Value)).map Prod.snd).getD .null = .ref s at same
    split at same
    · cases same
      exact Nat.zero_lt_one
    · cases same
  | 1 => cases same
  | r + 2 =>
    have outside : (nested name).cell (r + 2) = .module [] :=
      cell_outside _ (Nat.le_add_left 2 r)
    simp [own, entries?, attribute?, inherited?, fields?, outside, Table.lookup] at same

/-- An object that was put into itself as its children is neither accepted nor refused. Before the assignment
there is no cycle in the heap, and the assignment itself goes through. -/
theorem endless_after_assignment :
    ∃ evaluator, (Evaluator.ofSource Heap.empty false 1 (Text.of "o.children = o")).2 = .ok evaluator ∧
      let ended := evaluator.outcome (Host.standard 1) .run .null (.ref 0) (nested "o") .start
      (nested "o").IsAcyclic ∧ ended.1 = .ok (.ref 1) ∧ ended.2.heap.IsEndless (.ref 1) ∧
        Guard.object ended.2.heap (.ref 1) = .error (.fault .endless) := by
  have ran : (Evaluator.ofSource Heap.empty false 1 (Text.of "o.children = o")).2.toOption.any
      fun evaluator =>
        let ended := evaluator.outcome (Host.standard 1) .run .null (.ref 0) (nested "o") .start
        ended.1.toOption = some (.ref 1) ∧ (ended.2.heap.kind? (.ref 1)).isNone := by
    decide +kernel
  cases made : (Evaluator.ofSource Heap.empty false 1 (Text.of "o.children = o")).2 with
  | error failure =>
    rw [made] at ran
    cases ran
  | ok evaluator =>
    rw [made] at ran
    obtain ⟨value, unknown⟩ := of_decide_eq_true ran
    have endless := kind?_eq_none_iff.mp (Option.isNone_iff_eq_none.mp unknown)
    refine ⟨evaluator, rfl, isAcyclic_nested "o", ?_, endless, object_of_isEndless endless⟩
    cases done : (evaluator.outcome (Host.standard 1) .run .null (.ref 0) (nested "o") .start).1 with
    | ok found =>
      rw [done] at value
      exact congrArg Except.ok (Option.some.inj value)
    | error failure =>
      rw [done] at value
      cases value

end Heap

end GuardedExpr

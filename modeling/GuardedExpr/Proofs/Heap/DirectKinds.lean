import GuardedExpr.Proofs.Heap.EndlessInquiries

/-!
Kinds without a search. As the truth of a value is known beforehand, so is whether an object has the shape of
a document node, and the search for the kind of a value can only end with one answer. So whether it is taken
for a node depends on its own members, and not on what these hold.
-/

namespace GuardedExpr

inductive Value.IsFalsy : Value → Prop where
  | null : IsFalsy .null
  | no : IsFalsy (.bool false)
  | zero : IsFalsy (.int 0)
  | zeroFloat (negative : Bool) : IsFalsy (.float (.finite negative ⟨0, by decide⟩))
  | nan (mark : Nat) : IsFalsy (.float (.nan mark))
  | empty : IsFalsy (.text [])
  | derived (cls : DerivedClass) {scalar : Scalar} (falsy : IsFalsy scalar.value) : IsFalsy (.derived cls scalar)

theorem Scalar.truth_eq_false_iff {scalar : Scalar} : scalar.truth = false ↔ scalar.value.IsFalsy := by
  constructor
  · intro falsy
    cases scalar with
    | int n =>
      obtain rfl : n = 0 := by simpa [truth] using falsy
      exact .zero
    | float x =>
      cases x with
      | nan mark => exact .nan mark
      | infinite negative => cases falsy
      | finite negative rank =>
        obtain ⟨rank, bound⟩ := rank
        obtain rfl : rank = 0 := by simpa [truth, Double.isZero, Double.isNaN] using falsy
        exact .zeroFloat negative
    | text t =>
      obtain rfl : t = [] := by simpa [truth] using falsy
      exact .empty
  · intro falsy
    cases scalar <;> cases falsy <;> rfl

theorem Value.truth_eq_false_iff {v : Value} : v.truth = false ↔ v.IsFalsy := by
  constructor
  · intro falsy
    cases v with
    | null => exact .null
    | bool b =>
      obtain rfl : b = false := falsy
      exact .no
    | int n => exact (@Scalar.truth_eq_false_iff (.int n)).mp falsy
    | float x => exact (@Scalar.truth_eq_false_iff (.float x)).mp falsy
    | text t => exact (@Scalar.truth_eq_false_iff (.text t)).mp falsy
    | derived cls scalar => exact .derived cls (Scalar.truth_eq_false_iff.mp falsy)
    | _ => cases falsy
  · intro falsy
    cases falsy with
    | derived cls falsy => exact Scalar.truth_eq_false_iff.mpr falsy
    | _ => rfl

namespace Heap

variable {h : Heap} {v : Value} {kind : Kind} {depth : Nat}

def shape (truth : Text → Bool) : Bool :=
  truth (Text.of "children") &&
    (truth (Text.of "nodeName") ||
      (truth (Text.of "prop") && truth (Text.of "attr") && truth (Text.of "find")))

/-- The kind of a value, read off its own members. -/
def directKind (h : Heap) (v : Value) : Kind :=
  match h.markedKind? v with
  | some kind => kind
  | none =>
    if h.own v (Text.of "window") = v then .hostGlobal
    else if shape fun name => (h.own v name).truth then .hostNode
    else h.plainKind v

theorem rest_of_bind {question : Option Bool} {truth answer : Bool} {rest : Bool → Option Bool}
    (right : ∀ found, question = some found → found = truth) (done : (question >>= rest) = some answer) :
    rest truth = some answer := by
  obtain ⟨found, asked, rested⟩ := Option.bind_eq_some_iff.mp done
  rwa [← right found asked]

theorem shape_of_nodeShape {answer : Text → Option Bool} {truth : Text → Bool}
    (right : ∀ name found, answer name = some found → found = truth name) {shaped : Bool}
    (found : nodeShape answer = some shaped) : shaped = shape truth := by
  unfold nodeShape at found
  have first := rest_of_bind (right _) found
  unfold shape
  cases children : truth (Text.of "children") with
  | false => simpa [children] using first.symm
  | true =>
    simp only [children, Bool.not_true, Bool.false_eq_true, if_false] at first
    have second := rest_of_bind (right _) first
    cases nodeName : truth (Text.of "nodeName") with
    | true => simpa [nodeName] using second.symm
    | false =>
      simp only [nodeName, Bool.false_eq_true, if_false] at second
      have third := rest_of_bind (right _) second
      cases prop : truth (Text.of "prop") with
      | false => simpa [prop] using third.symm
      | true =>
        simp only [prop, Bool.not_true, Bool.false_eq_true, if_false] at third
        have fourth := rest_of_bind (right _) third
        cases attr : truth (Text.of "attr") with
        | false => simpa [attr] using fourth.symm
        | true =>
          simp only [attr, Bool.not_true, Bool.false_eq_true, if_false] at fourth
          simpa using right _ _ fourth

private theorem memberTruthWithin_right {name : Text} {found : Bool}
    (answered : h.memberTruthWithin depth v name = some found) : found = (h.own v name).truth := by
  obtain ⟨kind, decided, same⟩ := Option.bind_eq_some_iff.mp answered
  cases same
  exact truth_of_kindWithin decided

/-- However deep the search looks, it finds the kind that the members tell, or none. -/
theorem directKind_of_kindWithin (decided : h.kindWithin depth v = some kind) : kind = h.directKind v := by
  unfold directKind
  cases depth with
  | zero => cases decided
  | succ depth =>
    cases marked : h.markedKind? v with
    | some other =>
      rw [kindWithin_of_marked marked] at decided
      exact (Option.some.inj decided).symm
    | none =>
      by_cases window : h.own v (Text.of "window") = v
      · simp only [kindWithin, marked, window, if_true] at decided
        simp only [window, if_true]
        exact (Option.some.inj decided).symm
      · rw [kindWithin_of_unmarked marked window] at decided
        obtain ⟨shaped, found, same⟩ := Option.bind_eq_some_iff.mp decided
        have known := shape_of_nodeShape (fun _ _ => memberTruthWithin_right) found
        simp only [window, if_false, ← known]
        exact (Option.some.inj same).symm

/-- The kind of a value is the one that its members tell, unless the question has no end. -/
theorem kind?_eq_directKind (ends : ¬ h.IsEndless v) : h.kind? v = some (h.directKind v) := by
  obtain ⟨kind, found⟩ := Option.isSome_iff_exists.mp (kind?_isSome_iff.mpr ends)
  rw [found, directKind_of_kindWithin found]

theorem kind?_eq_some_iff : h.kind? v = some kind ↔ ∃ depth, h.kindWithin depth v = some kind := by
  refine ⟨fun found => ⟨_, found⟩, ?_⟩
  rintro ⟨depth, decided⟩
  have ends : ¬ h.IsEndless v := not_isEndless_of_acc (acc_of_kindWithin (by rw [decided]; rfl))
  rw [kind?_eq_directKind ends, directKind_of_kindWithin decided]

theorem truth?_eq_truth (ends : ¬ h.IsEndless v) : h.truth? v = some v.truth := by
  obtain ⟨kind, decided⟩ := Option.isSome_iff_exists.mp (kind?_isSome_iff.mpr ends)
  rw [truth?, decided, Option.map_some, truth_of_kindWithin decided]

theorem isTruthy_of_not_isEndless (ends : ¬ h.IsEndless v) : h.isTruthy v = .ok v.truth := by
  rw [isTruthy, truth?_eq_truth ends]
  rfl

def nodeNames : List Text :=
  ["children", "nodeName", "prop", "attr", "find"].map Text.of

def hasNodeShape (h : Heap) (v : Value) : Bool :=
  shape fun name => (h.own v name).truth

private theorem shape_congr {truth other : Text → Bool}
    (same : ∀ name ∈ nodeNames, truth name = other name) :
    shape truth = shape other := by
  simp only [nodeNames, List.forall_mem_map, List.forall_mem_cons] at same
  obtain ⟨children, nodeName, prop, attr, find, -⟩ := same
  simp only [shape, children, nodeName, prop, attr, find]

/-- Where the test for the shape of a node ends, it tells what the own members tell. -/
theorem hasNodeShape_of_looksLikeNode {shaped : Bool} (told : h.looksLikeNode v = .ok shaped) :
    shaped = h.hasNodeShape v :=
  shape_of_nodeShape (fun _ _ => truth_of_truth?) (ended_eq_ok.mp told)

private theorem asks_of_unmarked (unmarked : h.markedKind? v = none)
    (elsewhere : h.own v (Text.of "window") ≠ v)
    {name : Text} (asked : name ∈ askedNames fun name => (h.own v name).truth) : h.Asks v (h.own v name) := by
  simp only [Asks, inquiries, unmarked, elsewhere, Option.isSome_none, Bool.false_or, decide_false,
    Bool.false_eq_true, if_false]
  exact List.mem_map_of_mem asked

/-- The test for the shape of a node ends with the question for the kind, where it is a part of that. -/
theorem looksLikeNode_of_not_isEndless (ends : ¬ h.IsEndless v) (unmarked : h.markedKind? v = none)
    (elsewhere : h.own v (Text.of "window") ≠ v) : h.looksLikeNode v = .ok (h.hasNodeShape v) := by
  have answered : ∀ name ∈ askedNames fun name => (h.own v name).truth, (h.truth? (h.own v name)).isSome := by
    intro name asked
    have inner : ¬ h.IsEndless (h.own v name) :=
      fun endless => ends (endless.head (asks_of_unmarked unmarked elsewhere asked))
    rw [truth?_eq_truth inner]
    rfl
  have right : ∀ name found, h.truth? (h.own v name) = some found → found = (h.own v name).truth :=
    fun _ _ => truth_of_truth?
  obtain ⟨shaped, found⟩ := Option.isSome_iff_exists.mp ((nodeShape_isSome_iff right).mpr answered)
  rw [looksLikeNode, found, shape_of_nodeShape right found]
  rfl

/-- The search for the kind of a value is not needed. Wherever it ends, however deep it looks, the kind is the one that
the own members tell by a truth that takes no search, in which null, false, the zeros, what is no number and the empty
text are false and all else is true. In particular the test for the shape of a node tells the same of all values with
the same members, whatever these members hold. -/
theorem kind_told_by_members (h : Heap) (v : Value) (depth : Nat) (ends : h.kindWithin depth v = some kind) :
    h.classify v = .ok kind ∧ kind = h.directKind v ∧
    h.isTruthy v = .ok v.truth ∧ (v.truth = false ↔ v.IsFalsy) ∧
    (h.markedKind? v = none → h.own v (Text.of "window") ≠ v → h.looksLikeNode v = .ok (h.hasNodeShape v)) ∧
    ∀ (other : Heap) (w : Value), (∀ name ∈ nodeNames, other.own w name = h.own v name) →
      ∀ shaped, other.looksLikeNode w = .ok shaped → shaped = h.hasNodeShape v := by
  have finite : ¬ h.IsEndless v := not_isEndless_of_acc (acc_of_kindWithin (by rw [ends]; rfl))
  refine ⟨classify_eq_ok.mpr (kind?_eq_some_iff.mpr ⟨depth, ends⟩), directKind_of_kindWithin ends,
    isTruthy_of_not_isEndless finite, Value.truth_eq_false_iff, looksLikeNode_of_not_isEndless finite, ?_⟩
  intro other w same shaped told
  rw [hasNodeShape_of_looksLikeNode told]
  exact shape_congr fun name member => congrArg Value.truth (same name member)

def queryable (children : Cell) : Heap :=
  ⟨#[.object .box [(Text.of "children", .ref 1), (Text.of "prop", .ref 1), (Text.of "attr", .bool true),
    (Text.of "find", .int (-1))], children]⟩

/-- The object is a node, whatever its children are. -/
theorem kind_of_queryable :
    (queryable (.list [])).kindWithin 3 (.ref 0) = some .hostNode ∧
      (queryable (.list [])).classify (.ref 0) = .ok .hostNode ∧
      (queryable (.list [])).looksLikeNode (.ref 0) = .ok true ∧
      ∀ children shaped, (queryable children).looksLikeNode (.ref 0) = .ok shaped → shaped = true := by
  have ends : (queryable (.list [])).kindWithin 3 (.ref 0) = some .hostNode := by decide +kernel
  obtain ⟨classified, -, -, -, tested, alike⟩ := kind_told_by_members _ _ 3 ends
  refine ⟨ends, classified, tested rfl (by decide), fun children shaped told => ?_⟩
  exact alike (queryable children) (.ref 0) (fun _ _ => rfl) shaped told

end Heap

end GuardedExpr

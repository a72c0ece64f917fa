import GuardedExpr.Guard
import GuardedExpr.Heap.Equality
import GuardedExpr.Heap.Member
import GuardedExpr.Heap.Picture
import GuardedExpr.Json.Heap
import GuardedExpr.Proofs.Heap.ClassifiedValues

/-!
Regions of a heap: sets of containers that hold none but one another. What is asked about a value that lies in a region
is told by the cells of the region alone, and so has the same answer on every heap that has the same cells there.
-/

namespace GuardedExpr

def Method.LiesIn (region : Ref → Prop) : Method → Prop
  | .increment r | .ofList r _ | .ofTuple r _ => region r
  | .ofScalar _ _ => True

def Value.LiesIn (region : Ref → Prop) : Value → Prop
  | .ref r => region r
  | .method m => m.LiesIn region
  | _ => True

theorem Scalar.liesIn_value (scalar : Scalar) (region : Ref → Prop) : scalar.value.LiesIn region := by
  cases scalar <;> trivial

def Fields.LieIn (region : Ref → Prop) (fields : Fields) : Prop :=
  ∀ field ∈ fields, field.2.LiesIn region

def Entries.LieIn (region : Ref → Prop) (entries : Entries) : Prop :=
  ∀ entry ∈ entries, entry.2.1.LiesIn region ∧ entry.2.2.LiesIn region

/-- Whether everything that a cell holds lies in a region. What a function does when it is called is no member of it
and does not count. -/
def Cell.LiesIn (region : Ref → Prop) : Cell → Prop
  | .list items | .tuple items => ∀ item ∈ items, item.LiesIn region
  | .mapping _ entries => entries.LieIn region
  | .userInstance cls fields => region cls ∧ fields.LieIn region
  | .object _ fields | .function _ _ fields | .userClass fields | .module fields => fields.LieIn region

namespace Heap

variable {region : Ref → Prop} {a b : Heap} {v w key container : Value} {r : Ref} {name : Text}

def Encloses (h : Heap) (region : Ref → Prop) : Prop :=
  ∀ r, region r → (h.cell r).LiesIn region

structure Agree (region : Ref → Prop) (a b : Heap) : Prop where
  closed : a.Encloses region
  same : ∀ r, region r → b.cell r = a.cell r

/-! What reading a member of a container can find. -/

inductive Found (h : Heap) (container : Value) : Value → Prop where
  | absent : h.Found container .null
  | length (n : Int) : h.Found container (.int n)
  /-- What stands in a text. -/
  | character (c : CodePoint) : h.Found container (.text [c])
  | entry {entries : Entries} {entry : Key × Value × Value} (mapping : h.entries? container = some entries)
    (member : entry ∈ entries) : h.Found container entry.2.2
  | item {items : List Value} {item : Value} (list : h.items? container = some items) (member : item ∈ items) :
    h.Found container item
  /-- One of its attributes. -/
  | own {name : Text} {value : Value} (held : h.attribute? container name = some value) : h.Found container value

section Finding

variable {h : Heap} {value : Value}

theorem found_namedMember (h : Heap) (container key : Value) : h.Found container (h.namedMember container key) := by
  unfold namedMember
  split
  · next name _ =>
    cases held : h.attribute? container name with
    | none => exact .absent
    | some value => exact .own held
  · exact .absent

theorem found_of_positionedMember {α : Type} {items : List α} {shape : α → Value}
    (each : ∀ item ∈ items, h.Found container (shape item))
    (read : h.positionedMember container items shape key = .ok value) : h.Found container value := by
  rw [positionedMember, bind_eq_ok] at read
  obtain ⟨position, _, read⟩ := read
  cases position with
  | some position =>
    cases read
    unfold itemAt
    split
    · exact .absent
    · split
      · next item present => exact each item (List.mem_of_getElem? present)
      · exact .absent
  | none =>
    dsimp only at read
    split at read <;> cases read
    · exact .length items.length
    · exact found_namedMember h container key

theorem found_of_getMember (read : h.getMember container key = .ok value) : h.Found container value := by
  unfold getMember at read
  split at read
  · cases read
    exact .absent
  · exact found_of_positionedMember (fun c _ => .character c) read
  · split at read
    · next entries mapping =>
      cases read
      cases stored : (h.key? key).bind entries.find? with
      | none => exact .absent
      | some value =>
        obtain ⟨hashed, _, inside⟩ := Option.bind_eq_some_iff.mp stored
        obtain ⟨entry, looked, rfl⟩ := Option.map_eq_some_iff.mp inside
        exact .entry mapping (Table.mem_of_lookup looked)
    · next items _ list => exact found_of_positionedMember (fun _ member => .item list member) read
    · cases read
      exact found_namedMember h container key

private theorem found_own (h : Heap) (container : Value) (name : Text) :
    h.Found container (h.own container name) := by
  unfold own
  split
  · next entries mapping =>
    cases looked : Table.lookup [KeyPart.text name] entries with
    | none => exact .absent
    | some entry => exact .entry mapping (Table.mem_of_lookup looked)
  · cases held : h.attribute? container name with
    | none => exact .absent
    | some value => exact .own held

end Finding

/-! What is read in a region lies in it. -/

section Enclosed

variable {h : Heap} (closed : h.Encloses region)

include closed

theorem Encloses.entries {entries : Entries} (lies : v.LiesIn region) (found : h.entries? v = some entries) :
    entries.LieIn region := by
  cases v with
  | ref r =>
    have inside := closed r lies
    simp only [entries?] at found
    split at found
    · next kind inner content =>
      cases found
      rwa [content] at inside
    · cases found
  | _ => cases found

theorem Encloses.items {items : List Value} (lies : v.LiesIn region) (found : h.items? v = some items) :
    ∀ item ∈ items, item.LiesIn region := by
  cases v with
  | ref r =>
    have inside := closed r lies
    simp only [items?] at found
    split at found
    · next inner content =>
      cases found
      rwa [content] at inside
    · next inner content =>
      cases found
      rwa [content] at inside
    · cases found
  | _ => cases found

theorem Encloses.fields {fields : Fields} (inside : region r) (found : fields? (h.cell r) = some fields) :
    fields.LieIn region := by
  have lies := closed r inside
  cases content : h.cell r <;> rw [content] at lies found <;> cases found
  case userInstance => exact lies.2
  all_goals exact lies

theorem Encloses.inherited (inside : region r) {value : Value} (found : h.inherited? r name = some value) :
    value.LiesIn region := by
  unfold inherited? at found
  split at found
  · split at found
    · cases found
      exact inside
    · cases found
  · split at found
    · cases found
      exact inside
    · cases found
  · split at found
    · cases found
      exact inside
    · cases found
  · next cls own content =>
    have lies := closed r inside
    rw [content] at lies
    split at found
    · next fields isClass =>
      exact closed.fields (r := cls) lies.1 (by rw [isClass]; rfl) _ (Table.mem_of_lookup found)
    · cases found
  · cases found

omit closed in
private theorem liesIn_of_scalar {scalar : Scalar} {value : Value}
    (found : scalar.attribute? name = some value) :
    value.LiesIn region := by
  unfold Scalar.attribute? at found
  split at found
  · cases found
    trivial
  · unfold Scalar.part? at found
    repeat' split at found
    all_goals first | cases found; trivial | cases found

theorem Encloses.attribute (lies : v.LiesIn region) {value : Value} (found : h.attribute? v name = some value) :
    value.LiesIn region := by
  cases v with
  | ref r =>
    simp only [attribute?] at found
    split at found
    · next stored present =>
      cases found
      obtain ⟨fields, holds, looked⟩ := Option.bind_eq_some_iff.mp present
      exact closed.fields lies holds _ (Table.mem_of_lookup looked)
    · exact closed.inherited lies found
  | bool | int | float | text | derived => exact liesIn_of_scalar found
  | _ => cases found

theorem Encloses.found (lies : v.LiesIn region) {member : Value} (found : h.Found v member) :
    member.LiesIn region := by
  cases found with
  | absent | length | character => trivial
  | entry mapping member => exact (closed.entries lies mapping _ member).2
  | item list member => exact closed.items lies list _ member
  | own held => exact closed.attribute lies held

theorem Encloses.own (lies : v.LiesIn region) (name : Text) : (h.own v name).LiesIn region :=
  closed.found lies (found_own h v name)

theorem Encloses.getMember (lies : v.LiesIn region) {member : Value} (read : h.getMember v key = .ok member) :
    member.LiesIn region :=
  closed.found lies (found_of_getMember read)

end Enclosed

/-! What is asked about values of a region has the same answer on both heaps. -/

section Readings

variable (agree : Agree region a b)

include agree

theorem Agree.entries? (lies : v.LiesIn region) : b.entries? v = a.entries? v := by
  cases v with
  | ref r => simp only [Heap.entries?, agree.same r lies]
  | _ => rfl

theorem Agree.items? (lies : v.LiesIn region) : b.items? v = a.items? v := by
  cases v with
  | ref r => simp only [Heap.items?, agree.same r lies]
  | _ => rfl

theorem Agree.yielded? (lies : v.LiesIn region) : b.yielded? v = a.yielded? v := by
  simp only [Heap.yielded?, agree.entries? lies, agree.items? lies]

theorem Agree.inherited? (inside : region r) (name : Text) : b.inherited? r name = a.inherited? r name := by
  have lies := agree.closed r inside
  unfold Heap.inherited?
  rw [agree.same r inside]
  cases content : a.cell r with
  | userInstance cls fields =>
    rw [content] at lies
    simp only [agree.same cls lies.1]
  | object cls fields => cases cls <;> rfl
  | _ => rfl

theorem Agree.attribute? (lies : v.LiesIn region) (name : Text) : b.attribute? v name = a.attribute? v name := by
  cases v with
  | ref r => simp only [Heap.attribute?, agree.same r lies, agree.inherited? lies name]
  | _ => rfl

theorem Agree.own (lies : v.LiesIn region) (name : Text) : b.own v name = a.own v name := by
  simp only [Heap.own, agree.entries? lies, agree.attribute? lies name]

omit agree in
theorem mapM_congr {μ : Type → Type} [Monad μ] [LawfulMonad μ] {α β : Type} {f g : α → μ β} {items : List α}
    (each : ∀ item ∈ items, f item = g item) : items.mapM f = items.mapM g := by
  induction items with
  | nil => rfl
  | cons item rest ih =>
    obtain ⟨head, tail⟩ := List.forall_mem_cons.mp each
    rw [List.mapM_cons, List.mapM_cons, head, ih tail]

theorem Agree.keyWithin (depth : Nat) (lies : v.LiesIn region) : b.keyWithin depth v = a.keyWithin depth v := by
  induction depth generalizing v with
  | zero =>
    cases v with
    | ref r => simp only [Heap.keyWithin, agree.same r lies]
    | _ => rfl
  | succ depth ih =>
    cases v with
    | ref r =>
      have inside := agree.closed r lies
      simp only [Heap.keyWithin, agree.same r lies]
      cases content : a.cell r with
      | tuple items =>
        rw [content] at inside
        simp only [mapM_congr fun item member => ih (inside item member)]
      | _ => rfl
    | _ => rfl

theorem Agree.key? (lies : v.LiesIn region) : b.key? v = a.key? v := by
  cases v with
  | ref r => exact agree.keyWithin (r + 1) lies
  | _ => rfl

theorem Agree.namedMember (lies : container.LiesIn region) :
    b.namedMember container key = a.namedMember container key := by
  unfold Heap.namedMember
  split
  · rw [agree.attribute? lies]
  · rfl

theorem Agree.positionedMember {α : Type} (lies : container.LiesIn region) (items : List α) (shape : α → Value) :
    b.positionedMember container items shape key = a.positionedMember container items shape key := by
  simp only [Heap.positionedMember, agree.namedMember lies]

/-- Members of what lies in the region are the same under all keys that lie in it. -/
theorem Agree.getMember (lies : container.LiesIn region) (keyLies : key.LiesIn region) :
    b.getMember container key = a.getMember container key := by
  simp only [Heap.getMember, agree.entries? lies, agree.items? lies, agree.key? keyLies,
    agree.positionedMember lies, agree.namedMember lies]

theorem Agree.isCallable (lies : v.LiesIn region) : b.isCallable v = a.isCallable v := by
  cases v with
  | ref r => simp only [Heap.isCallable, agree.same r lies]
  | _ => rfl

theorem Agree.describe (lies : v.LiesIn region) : b.describe v = a.describe v := by
  cases v with
  | ref r => simp only [Heap.describe, agree.same r lies]
  | method m => cases m <;> rfl
  | primitive p => cases p <;> rfl
  | _ => rfl

theorem Agree.markedKind? (lies : v.LiesIn region) : b.markedKind? v = a.markedKind? v := by
  cases v with
  | ref r => simp only [Heap.markedKind?, agree.same r lies]
  | constructor c => cases c <;> rfl
  | _ => rfl

theorem Agree.plainKind (lies : v.LiesIn region) : b.plainKind v = a.plainKind v := by
  cases v with
  | ref r => simp only [Heap.plainKind, agree.same r lies]
  | _ => rfl

theorem Agree.kindWithin (depth : Nat) (lies : v.LiesIn region) : b.kindWithin depth v = a.kindWithin depth v := by
  induction depth generalizing v with
  | zero => rfl
  | succ depth ih =>
    have member (name : Text) := ih (agree.closed.own lies name)
    simp only [Heap.kindWithin, agree.markedKind? lies, agree.plainKind lies, agree.own lies, member]

theorem Agree.displayWithin (depth : Nat) (path : List Ref) (lies : v.LiesIn region) :
    b.displayWithin depth path v = a.displayWithin depth path v := by
  induction depth generalizing v path with
  | zero =>
    cases v with
    | bool value => cases value <;> rfl
    | primitive p => cases p <;> rfl
    | _ => rfl
  | succ depth ih =>
    cases v with
    | ref r =>
      have inside := agree.closed r lies
      simp only [Heap.displayWithin, agree.same r lies]
      cases content : a.cell r <;> rw [content] at inside
      case list items | tuple items =>
        simp only [List.map_congr_left fun item member => ih (r :: path) (inside item member)]
      case mapping kind entries =>
        have same : entriesText (b.displayWithin depth (r :: path)) entries =
            entriesText (a.displayWithin depth (r :: path)) entries := by
          unfold entriesText
          rw [List.map_congr_left fun entry member => by
            rw [ih (r :: path) (inside entry member).1, ih (r :: path) (inside entry member).2]]
        simp only [same]
    | bool value => cases value <;> rfl
    | primitive p => cases p <;> rfl
    | _ => rfl

theorem Agree.equalWithin (depth : Nat) (lies : v.LiesIn region) (also : w.LiesIn region) :
    b.equalWithin depth v w = a.equalWithin depth v w := by
  induction depth generalizing v w with
  | zero => rfl
  | succ depth ih =>
    have items {us ws : List Value} (left : ∀ u ∈ us, u.LiesIn region) (right : ∀ w ∈ ws, w.LiesIn region) :
        ((us.zip ws).map fun pair => b.equalWithin depth pair.1 pair.2) =
          (us.zip ws).map fun pair => a.equalWithin depth pair.1 pair.2 :=
      List.map_congr_left fun pair member =>
        ih (left _ (List.of_mem_zip member).1) (right _ (List.of_mem_zip member).2)
    simp only [Heap.equalWithin, agree.key? lies, agree.key? also]
    split
    · rfl
    · split
      · rfl
      · split
        · next r s _ _ =>
          have here := agree.closed r lies
          have there := agree.closed s also
          rw [agree.same r lies, agree.same s also]
          cases content : a.cell r <;> cases opposite : a.cell s <;> rw [content] at here <;>
            rw [opposite] at there <;> try rfl
          case list.list | tuple.tuple =>
            simp only [items here there]
          case mapping.mapping kind entries kind' others =>
            refine ite_congr rfl (fun _ => congrArg allTrue (List.map_congr_left fun entry member => ?_)) fun _ => rfl
            cases found : others.find? entry.1 with
            | none => rfl
            | some other =>
              obtain ⟨pair, looked, rfl⟩ := Option.map_eq_some_iff.mp found
              exact ih (here entry member).2 (there _ (Table.mem_of_lookup looked)).2
        · rfl

omit agree in
theorem findSome?_congr {α β : Type} {f g : α → Option β} {items : List α} (each : ∀ item ∈ items, f item = g item) :
    items.findSome? f = items.findSome? g := by
  induction items with
  | nil => rfl
  | cons item rest ih =>
    obtain ⟨head, tail⟩ := List.forall_mem_cons.mp each
    rw [List.findSome?_cons, List.findSome?_cons, head, ih tail]

theorem Agree.overlongWithin (depth : Nat) (path : List Ref) (lies : v.LiesIn region) :
    b.overlongWithin depth path v = a.overlongWithin depth path v := by
  induction depth generalizing v path with
  | zero => cases v <;> rfl
  | succ depth ih =>
    cases v with
    | ref r =>
      have inside := agree.closed r lies
      simp only [Heap.overlongWithin, agree.same r lies]
      cases content : a.cell r <;> rw [content] at inside
      case list items | tuple items =>
        simp only [findSome?_congr fun item member => ih (r :: path) (inside item member)]
      case mapping kind entries =>
        have each (entry) (member : entry ∈ entries) :
            (b.overlongWithin depth (r :: path) entry.2.1).or (b.overlongWithin depth (r :: path) entry.2.2) =
              (a.overlongWithin depth (r :: path) entry.2.1).or (a.overlongWithin depth (r :: path) entry.2.2) := by
          rw [ih (r :: path) (inside entry member).1, ih (r :: path) (inside entry member).2]
        simp only [findSome?_congr each]
    | _ => rfl

theorem Agree.pictureWithin (depth : Nat) (path : List Ref) (lies : v.LiesIn region) :
    b.pictureWithin depth path v = a.pictureWithin depth path v := by
  induction depth generalizing v path with
  | zero => cases v <;> rfl
  | succ depth ih =>
    cases v with
    | ref r =>
      have inside := agree.closed r lies
      have ofFields {fields : Fields} (lie : fields.LieIn region) :
          (fields.map fun field => (field.1, b.pictureWithin depth (r :: path) field.2)) =
            fields.map fun field => (field.1, a.pictureWithin depth (r :: path) field.2) :=
        List.map_congr_left fun field member => by rw [ih (r :: path) (lie field member)]
      simp only [Heap.pictureWithin, agree.same r lies]
      cases path.idxOf? r with
      | some position => rfl
      | none =>
        cases content : a.cell r <;> rw [content] at inside
        case list items | tuple items =>
          simp only [List.map_congr_left fun item member => ih (r :: path) (inside item member)]
        case mapping kind entries =>
          have each (entry) (member : entry ∈ entries) :
              (b.pictureWithin depth (r :: path) entry.2.1, b.pictureWithin depth (r :: path) entry.2.2) =
                (a.pictureWithin depth (r :: path) entry.2.1, a.pictureWithin depth (r :: path) entry.2.2) := by
            rw [ih (r :: path) (inside entry member).1, ih (r :: path) (inside entry member).2]
          simp only [List.map_congr_left each]
        case object cls fields | function title behaviour fields => simp only [ofFields inside]
        case userInstance cls fields => simp only [ofFields inside.2]
    | _ => rfl

end Readings

/-! On heaps of one size the searches through members and contents go as deep. -/

section Searches

variable (agree : Agree region a b) (size : b.size = a.size)

include agree size

theorem Agree.kind? (lies : v.LiesIn region) : b.kind? v = a.kind? v := by
  rw [Heap.kind?, Heap.kind?, size, agree.kindWithin _ lies]

theorem Agree.classify (lies : v.LiesIn region) : b.classify v = a.classify v := by
  rw [Heap.classify, Heap.classify, agree.kind? size lies]

theorem Agree.isTruthy (lies : v.LiesIn region) : b.isTruthy v = a.isTruthy v := by
  simp only [Heap.isTruthy, Heap.truth?, agree.kind? size lies]

theorem Agree.object (lies : v.LiesIn region) : Guard.object b v = Guard.object a v := by
  simp only [Guard.object, agree.classify size lies]

theorem Agree.function (lies : v.LiesIn region) : Guard.function b v = Guard.function a v := by
  simp only [Guard.function, agree.classify size lies]

theorem Agree.hasMember (lies : v.LiesIn region) (name : Text) : b.hasMember v name = a.hasMember v name := by
  simp only [Heap.hasMember, agree.isTruthy size lies, agree.entries? lies, agree.attribute? lies]

theorem Agree.display (lies : v.LiesIn region) : b.display v = a.display v := by
  rw [Heap.display, Heap.display, size, agree.displayWithin _ _ lies]

theorem Agree.overlong? (lies : v.LiesIn region) : b.overlong? v = a.overlong? v := by
  rw [Heap.overlong?, Heap.overlong?, size, agree.overlongWithin _ _ lies]

theorem Agree.equal? (lies : v.LiesIn region) (also : w.LiesIn region) : b.equal? v w = a.equal? v w := by
  rw [Heap.equal?, Heap.equal?, size, agree.equalWithin _ lies also]

theorem Agree.picture (lies : v.LiesIn region) : b.picture v = a.picture v := by
  rw [Heap.picture, Heap.picture, size, agree.pictureWithin _ _ lies]

theorem Agree.displayJson (lies : v.LiesIn region) : b.displayJson v = a.displayJson v := by
  rw [Heap.displayJson, Heap.displayJson, agree.overlong? size lies, agree.display size lies]

theorem Agree.toJsonWithin (depth : Nat) (path : List Ref) (lies : v.LiesIn region) :
    b.toJsonWithin depth path v = a.toJsonWithin depth path v := by
  induction depth generalizing v path with
  | zero =>
    cases v with
    | method | primitive | constructor => exact agree.displayJson size lies
    | _ => rfl
  | succ depth ih =>
    cases v with
    | ref r =>
      have inside := agree.closed r lies
      simp only [Heap.toJsonWithin, agree.same r lies, agree.displayJson size lies]
      cases content : a.cell r <;> rw [content] at inside
      case list items | tuple items =>
        simp only [mapM_congr fun item member => ih (r :: path) (inside item member)]
      case mapping kind entries =>
        cases kind
        case readOnly => rfl
        all_goals
          dsimp only
          rw [mapM_congr fun entry member => by rw [ih (r :: path) (inside entry member).2]]
    | method | primitive | constructor => exact agree.displayJson size lies
    | _ => rfl

theorem Agree.stringify (lies : v.LiesIn region) : b.stringify v = a.stringify v := by
  rw [Heap.stringify, Heap.stringify, size, agree.toJsonWithin size _ _ lies]

theorem Agree.showing (lies : key.LiesIn region) (error : Text → Error) :
    b.showing key error = a.showing key error := by
  simp only [Heap.showing, agree.overlong? size lies, agree.display size lies]

theorem Agree.unsettable (lies : container.LiesIn region) (keyLies : key.LiesIn region) :
    b.unsettable container key = a.unsettable container key := by
  simp only [Heap.unsettable, agree.showing size keyLies, agree.describe lies]

end Searches

end Heap

end GuardedExpr

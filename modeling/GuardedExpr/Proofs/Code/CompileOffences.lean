import GuardedExpr.Proofs.Node.RegularTrees
import GuardedExpr.Proofs.Node.TreeTraits

/-!
What compilation refuses: names that are not safe, where they are looked up or stand behind a point, and targets that
are no places. The parts of an expression are gone through in one order, and the first of them that is refused is what
compilation fails for.
-/

namespace GuardedExpr

inductive Offence where
  | name (name : Text)
  | target (left : Node)

def Offence.error : Offence → Error
  | .name _ => .disallowedName
  | .target _ => .invalidTarget

namespace Node

inductive Contains : Node → Node → Prop where
  | self (node : Node) : Contains node node
  | part {outer part node : Node} (member : part ∈ outer.parts) (inside : Contains part node) : Contains outer node

/-- Nothing is refused for a node itself: the name that is looked up, or that stands behind a point, is safe, and the
target of an assignment is a name or a member. -/
def IsAllowed : Node → Prop
  | .identifier name => Guard.isSafeName name
  | .member _ (.identifier name) false => Guard.isSafeName name
  | .assignment left _ => left.isAssignable
  | _ => True

def nameOffences (name : Text) : List Offence :=
  if Guard.isSafeName name then [] else [.name name]

def targetOffences (left : Node) : List Offence :=
  if left.isAssignable then [] else [.target left]

mutual

/-- All offences in an expression, in the order in which they are met: those of an object before those of the name
behind the point, of a callee before its arguments, of a left side before the right one, and the parts of a left side
before the left side as a target. -/
def offences : Node → List Offence
  | .array elements => offencesAll elements
  | .object properties => offencesOfValues properties
  | .identifier name => nameOffences name
  | .member subject key true => subject.offences ++ key.offences
  | .member subject (.identifier name) false => subject.offences ++ nameOffences name
  | .call callee arguments => callee.offences ++ offencesAll arguments
  | .assignment left right => left.offences ++ (targetOffences left ++ right.offences)
  | _ => []

def offencesAll : List Node → List Offence
  | [] => []
  | node :: nodes => node.offences ++ offencesAll nodes

def offencesOfValues : List Node → List Offence
  | .property _ value :: properties => value.offences ++ offencesOfValues properties
  | _ => []

end

def firstOffence (offences : List Offence) : Except Error Unit :=
  match offences with
  | [] => .ok ()
  | offence :: _ => .error offence.error

theorem firstOffence_append (offences others : List Offence) :
    firstOffence (offences ++ others) = firstOffence offences >>= fun _ => firstOffence others := by
  cases offences <;> rfl

private theorem firstOffence_eq_ok_iff {offences : List Offence} :
    firstOffence offences = .ok () ↔ offences = [] := by
  cases offences <;> simp [firstOffence]

private theorem firstOffence_eq_error_iff {offences : List Offence} {failure : Error} :
    firstOffence offences = .error failure ↔ ∃ first, offences.head? = some first ∧ failure = first.error := by
  cases offences <;> simp [firstOffence, eq_comm]

theorem checkedName_eq_first (name : Text) : checkedName name = firstOffence (nameOffences name) := by
  unfold checkedName Guard.memberName nameOffences
  dsimp only
  split <;> rfl

mutual

theorem verdict_eq_first : (node : Node) → node.isRegular → node.verdict = firstOffence node.offences
  | .literal _, _ | .this, _ | .locals, _ => rfl
  | .array elements, regular => verdictAll_eq_first elements regular
  | .object properties, regular => verdictProperties_eq_first properties regular
  | .identifier name, _ => checkedName_eq_first name
  | .member subject key true, regular => by
    obtain ⟨one, other⟩ := Bool.and_eq_true_iff.mp regular
    rw [verdict, offences, firstOffence_append, verdict_eq_first subject one, verdict_eq_first key other]
  | .member subject (.identifier name) false, regular => by
    rw [verdict, offences, firstOffence_append, verdict_eq_first subject regular, ← checkedName_eq_first]
    rfl
  | .call callee arguments, regular => by
    obtain ⟨one, others⟩ := Bool.and_eq_true_iff.mp regular
    rw [verdict, offences, firstOffence_append, verdict_eq_first callee one, verdictAll_eq_first arguments others]
  | .assignment left right, regular => by
    obtain ⟨one, other⟩ := Bool.and_eq_true_iff.mp regular
    rw [verdict, offences, firstOffence_append, firstOffence_append, verdict_eq_first left one,
      verdict_eq_first right other, targetOffences]
    split <;> rfl

theorem verdictAll_eq_first : (nodes : List Node) → areRegular nodes →
    verdictAll nodes = firstOffence (offencesAll nodes)
  | [], _ => rfl
  | node :: nodes, regular => by
    obtain ⟨one, others⟩ := Bool.and_eq_true_iff.mp regular
    rw [verdictAll, offencesAll, firstOffence_append, verdict_eq_first node one, verdictAll_eq_first nodes others]

theorem verdictProperties_eq_first : (properties : List Node) → areRegularProperties properties →
    verdictProperties properties = firstOffence (offencesOfValues properties)
  | [], _ => rfl
  | .property key value :: properties, regular => by
    obtain ⟨both, others⟩ := Bool.and_eq_true_iff.mp regular
    obtain ⟨isKey, one⟩ := Bool.and_eq_true_iff.mp both
    have exempt : key.keyVerdict = .ok () := by
      cases key with
      | identifier | literal => rfl
      | _ => cases isKey
    rw [verdictProperties, offencesOfValues, firstOffence_append, exempt, verdict_eq_first value one,
      verdictProperties_eq_first properties others]
    rfl

end

theorem offencesAll_eq_nil_iff {nodes : List Node} : offencesAll nodes = [] ↔ ∀ node ∈ nodes, node.offences = [] := by
  induction nodes with
  | nil => simp [offencesAll]
  | cons node nodes hypothesis => simp [offencesAll, hypothesis]

private theorem offencesOfValues_eq {properties : List Node}
    (regular : areRegularProperties properties) :
    offencesOfValues properties = offencesAll (properties.map propertyValue) := by
  induction properties with
  | nil => rfl
  | cons property properties hypothesis =>
    cases property with
    | property key value =>
      rw [offencesOfValues, List.map_cons, offencesAll, hypothesis (Bool.and_eq_true_iff.mp regular).2]
      rfl
    | _ => cases regular

/-- An expression has no offence just if nothing is refused for the expression itself and none of its parts has one. -/
theorem offences_eq_nil_iff {node : Node} (regular : node.isRegular) :
    node.offences = [] ↔ node.IsAllowed ∧ ∀ part ∈ node.parts, part.offences = [] := by
  cases node with
  | literal | this | locals => simp [offences, IsAllowed, parts]
  | array elements => simp [offences, IsAllowed, parts, offencesAll_eq_nil_iff]
  | object properties =>
    rw [offences, offencesOfValues_eq regular, offencesAll_eq_nil_iff]
    simp [IsAllowed, parts]
  | identifier name => simp [offences, IsAllowed, parts, nameOffences]
  | call callee arguments => simp [offences, IsAllowed, parts, offencesAll_eq_nil_iff]
  | assignment left right => simp [offences, IsAllowed, parts, targetOffences, and_left_comm]
  | member subject key computed =>
    cases computed with
    | true => simp [offences, IsAllowed, parts]
    | false =>
      cases key with
      | identifier name => simp [offences, IsAllowed, parts, nameOffences, and_comm]
      | _ => cases regular
  | _ => cases regular

theorem areRegular_iff {nodes : List Node} : areRegular nodes ↔ ∀ node ∈ nodes, node.isRegular := by
  induction nodes with
  | nil => simp [areRegular]
  | cons node nodes hypothesis => simp [areRegular, hypothesis]

private theorem areRegular_values {properties : List Node}
    (regular : areRegularProperties properties) :
    areRegular (properties.map propertyValue) := by
  induction properties with
  | nil => rfl
  | cons property properties hypothesis =>
    cases property with
    | property key value =>
      obtain ⟨both, others⟩ := Bool.and_eq_true_iff.mp regular
      exact Bool.and_eq_true_iff.mpr ⟨(Bool.and_eq_true_iff.mp both).2, hypothesis others⟩
    | _ => cases regular

theorem isRegular_of_part {outer part : Node} (inside : part ∈ outer.parts) (regular : outer.isRegular) :
    part.isRegular := by
  cases outer with
  | array elements => exact areRegular_iff.mp regular part inside
  | object properties => exact areRegular_iff.mp (areRegular_values regular) part inside
  | call callee arguments =>
    obtain ⟨one, others⟩ := Bool.and_eq_true_iff.mp regular
    rcases List.mem_cons.mp inside with rfl | given
    · exact one
    · exact areRegular_iff.mp others part given
  | assignment left right =>
    obtain ⟨one, other⟩ := Bool.and_eq_true_iff.mp regular
    rcases List.mem_pair.mp inside with rfl | rfl
    · exact one
    · exact other
  | member subject key computed =>
    cases computed with
    | true =>
      obtain ⟨one, other⟩ := Bool.and_eq_true_iff.mp regular
      rcases List.mem_pair.mp inside with rfl | rfl
      · exact one
      · exact other
    | false =>
      cases key with
      | identifier name => exact List.mem_singleton.mp inside ▸ regular
      | _ => cases regular
  | _ => cases inside

private theorem sizeOf_part {outer part : Node} (inside : part ∈ outer.parts) :
    sizeOf part < sizeOf outer := by
  cases outer with
  | array elements =>
    have less : sizeOf part < sizeOf elements := List.sizeOf_lt_of_mem inside
    rw [Node.array.sizeOf_spec]
    omega
  | object properties =>
    obtain ⟨property, given, rfl⟩ := List.mem_map.mp inside
    have less : sizeOf property < sizeOf properties := List.sizeOf_lt_of_mem given
    have value : sizeOf property.propertyValue ≤ sizeOf property := by
      cases property <;> simp [propertyValue]
    rw [Node.object.sizeOf_spec]
    omega
  | call callee arguments =>
    rw [Node.call.sizeOf_spec]
    rcases List.mem_cons.mp inside with rfl | given
    · omega
    · have less := List.sizeOf_lt_of_mem given
      omega
  | assignment left right =>
    rw [Node.assignment.sizeOf_spec]
    rcases List.mem_pair.mp inside with rfl | rfl <;> omega
  | member subject key computed =>
    rw [Node.member.sizeOf_spec]
    cases computed with
    | true => rcases List.mem_pair.mp inside with rfl | rfl <;> omega
    | false =>
      rw [List.mem_singleton.mp inside]
      omega
  | _ => cases inside

private theorem Contains.isAllowed {outer node : Node} (inside : outer.Contains node)
    (regular : outer.isRegular)
    (innocent : outer.offences = []) : node.IsAllowed := by
  induction inside with
  | self node => exact ((offences_eq_nil_iff regular).mp innocent).1
  | part member _ hypothesis =>
    exact hypothesis (isRegular_of_part member regular) (((offences_eq_nil_iff regular).mp innocent).2 _ member)

theorem offences_eq_nil_of_allowed (node : Node) (regular : node.isRegular)
    (allowed : ∀ inner, node.Contains inner → inner.IsAllowed) : node.offences = [] := by
  refine (offences_eq_nil_iff regular).mpr ⟨allowed node (.self node), fun part member => ?_⟩
  exact offences_eq_nil_of_allowed part (isRegular_of_part member regular)
    fun inner inside => allowed inner (.part member inside)
termination_by sizeOf node
decreasing_by exact sizeOf_part member

private theorem offences_eq_nil_iff_allowed {node : Node} (regular : node.isRegular) :
    node.offences = [] ↔ ∀ inner, node.Contains inner → inner.IsAllowed :=
  ⟨fun innocent _ inside => inside.isAllowed regular innocent, offences_eq_nil_of_allowed node regular⟩

end Node

namespace Evaluator

variable {h : Heap} {body right : Node} {text : Text} {evaluator : Evaluator}

theorem exists_ofTree_iff : (∃ evaluator, ofTree h (.program body) text = .ok evaluator) ↔ body.verdict = .ok () := by
  have reports := reports_ofTree h body text
  constructor
  · rintro ⟨evaluator, made⟩
    exact reports.eq_ok made
  · intro sound
    rw [sound] at reports
    exact reports.exists_ok

private theorem ofTree_eq_error_iff {failure : Error} :
    ofTree h (.program body) text = .error failure ↔ body.verdict = .error failure := by
  have reports : (ofTree h (.program body) text).map (fun _ => ()) = body.verdict := reports_ofTree h body text
  rw [← reports]
  cases ofTree h (.program body) text <;> simp [Except.map]

/-- Where a right side compiles, an assignment of it compiles just if the left side does and can be assigned to. -/
theorem exists_ofTree_assignment_iff {other : Evaluator} (made : ofTree h (.program body) text = .ok evaluator)
    (right_ : ofTree h (.program right) text = .ok other) :
    (∃ whole, ofTree h (.program (.assignment body right)) text = .ok whole) ↔ evaluator.isAssignable := by
  have left : body.verdict = .ok () := exists_ofTree_iff.mp ⟨evaluator, made⟩
  have behind : right.verdict = .ok () := exists_ofTree_iff.mp ⟨other, right_⟩
  rw [exists_ofTree_iff, Node.verdict, left, behind, isAssignable_of_ofTree made]
  cases body.isAssignable with
  | true => exact iff_of_true rfl rfl
  | false => exact iff_of_false nofun nofun

/-- What a source is read as compiles just if nothing is refused anywhere in it, and otherwise compilation fails for
the first offence. Where it compiles, the evaluator can be assigned to just if the expression can be the left side of
an assignment that compiles, and then any right side that compiles will do. -/
theorem ofTree_refuses_first_offence {strict : Bool} {marks : Nat} {source : Text} {tree : Node}
    {leftover : Option Token} (h : Heap) (text : Text) (read : parse strict marks source = .ok (tree, leftover)) :
    ∃ body, tree = .program body ∧
      ((∃ evaluator, ofTree h tree text = .ok evaluator) ↔ ∀ node, body.Contains node → node.IsAllowed) ∧
      (∀ failure, ofTree h tree text = .error failure ↔
        ∃ first, body.offences.head? = some first ∧ failure = first.error) ∧
      ∀ evaluator, ofTree h tree text = .ok evaluator →
        (evaluator.isAssignable ↔
          ∃ right whole, right.isRegular ∧ ofTree h (.program (.assignment body right)) text = .ok whole) ∧
        (evaluator.isAssignable → ∀ right other, ofTree h (.program right) text = .ok other →
          ∃ whole, ofTree h (.program (.assignment body right)) text = .ok whole) := by
  have regular := parse_regular strict marks source
  rw [read] at regular
  obtain ⟨body, rfl, regular⟩ := regular
  have verdict := Node.verdict_eq_first body regular
  refine ⟨body, rfl, ?_, fun failure => ?_, fun evaluator made => ⟨⟨fun assignable => ?_, ?_⟩, ?_⟩⟩
  · rw [exists_ofTree_iff, verdict, Node.firstOffence_eq_ok_iff, Node.offences_eq_nil_iff_allowed regular]
  · rw [ofTree_eq_error_iff, verdict, Node.firstOffence_eq_error_iff]
  · obtain ⟨other, right_⟩ : ∃ other, ofTree h (.program .this) text = .ok other := ⟨_, rfl⟩
    obtain ⟨whole, assigned⟩ := (exists_ofTree_assignment_iff made right_).mpr assignable
    exact ⟨.this, whole, rfl, assigned⟩
  · rintro ⟨right, whole, _, assigned⟩
    obtain ⟨other, right_⟩ : ∃ other, ofTree h (.program right) text = .ok other :=
      exists_ofTree_iff.mpr (Node.verdict_right (exists_ofTree_iff.mp ⟨whole, assigned⟩))
    exact (exists_ofTree_assignment_iff made right_).mp ⟨whole, assigned⟩
  · exact fun assignable right other right_ => (exists_ofTree_assignment_iff made right_).mpr assignable

/-- In `f()=a.mro` the target is refused, and the name behind the point would have been, but not first. -/
theorem refuses_target_before_name :
    let body : Node := .assignment (.call (.identifier (Text.of "f")) [])
      (.member (.identifier (Text.of "a")) (.identifier (Text.of "mro")) false)
    parse true 0 (Text.of "f()=a.mro") = .ok (.program body, none) ∧
      body.offences = [.target (.call (.identifier (Text.of "f")) []), .name (Text.of "mro")] ∧
      ofTree ⟨#[]⟩ (.program body) (Text.of "f()=a.mro") = .error .invalidTarget := by
  intro body
  have scanned : tokenize (Text.of "f()=a.mro") = .ok [⟨.identifier, Text.of "f", .null, ⟨1, 1⟩⟩,
      ⟨.leftParen, Text.of "(", .null, ⟨1, 2⟩⟩, ⟨.rightParen, Text.of ")", .null, ⟨1, 3⟩⟩,
      ⟨.assign, Text.of "=", .null, ⟨1, 4⟩⟩, ⟨.identifier, Text.of "a", .null, ⟨1, 5⟩⟩,
      ⟨.dot, Text.of ".", .null, ⟨1, 6⟩⟩, ⟨.identifier, Text.of "mro", .null, ⟨1, 7⟩⟩,
      ⟨.endOfInput, [], .null, ⟨1, 10⟩⟩] := rfl
  have read : parse true 0 (Text.of "f()=a.mro") = .ok (.program body, none) := by
    rw [parse, scanned]
    rfl
  have offences : body.offences = [.target (.call (.identifier (Text.of "f")) []), .name (Text.of "mro")] := rfl
  obtain ⟨_, same, _, fails, _⟩ := ofTree_refuses_first_offence ⟨#[]⟩ (Text.of "f()=a.mro") read
  rw [← Node.program.inj same] at fails
  exact ⟨read, offences, (fails .invalidTarget).mpr ⟨_, congrArg List.head? offences, rfl⟩⟩

end Evaluator

end GuardedExpr

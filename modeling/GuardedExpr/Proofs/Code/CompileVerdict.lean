import GuardedExpr.Proofs.Code.CompilationRules

/-!
Which expressions compile. Compilation refuses names that are not safe and targets that are no places, and stops
at the first of them. Neither where the expression stands nor whether its places are to be created matters to
that.
-/

namespace GuardedExpr

variable {α β : Type}

def Reports (outcome : Except Error α) (verdict : Except Error Unit) : Prop :=
  outcome.map (fun _ => ()) = verdict

namespace Reports

variable {first : Except Error α} {next : α → Except Error β} {verdict rest : Except Error Unit}

theorem refl (verdict : Except Error Unit) : Reports verdict verdict := by
  cases verdict <;> rfl

theorem bind (reports : Reports first verdict)
    (later : ∀ value, first = .ok value → Reports (next value) rest) :
    Reports (first >>= next) (verdict >>= fun _ => rest) := by
  cases reports
  cases first with
  | error failure => rfl
  | ok value => exact later value rfl

theorem safely (reports : Reports first verdict)
    (later : ∀ value, first = .ok value → Reports (next value) (.ok ())) :
    Reports (first >>= next) verdict := by
  have whole := reports.bind later
  cases verdict with
  | error failure => exact whole
  | ok done => exact whole

theorem exists_ok (reports : Reports first (.ok ())) : ∃ value, first = .ok value := by
  cases first with
  | error failure => cases reports
  | ok value => exact ⟨value, rfl⟩

theorem eq_ok (reports : Reports first verdict) {value : α} (done : first = .ok value) : verdict = .ok () := by
  cases reports
  rw [done]
  rfl

end Reports

namespace Node

def fieldVerdict (field : Node) : Except Error Unit := do
  checkedName (← memberName field)

def keyVerdict : Node → Except Error Unit
  | .identifier _ | .literal _ => .ok ()
  | _ => .error (.fault .misplacedExpression)

mutual

def verdict : Node → Except Error Unit
  | .program body => body.verdict
  | .array elements => verdictAll elements
  | .object properties => verdictProperties properties
  | .identifier name => checkedName name
  | .member subject index true => do
    subject.verdict
    index.verdict
  | .member subject field false => do
    subject.verdict
    field.fieldVerdict
  | .call callee arguments => do
    callee.verdict
    verdictAll arguments
  | .assignment left right => do
    left.verdict
    if left.isAssignable then right.verdict else throw .invalidTarget
  | .property _ _ | .foreign => .error (.fault .notAnExpression)
  | _ => .ok ()

def verdictAll : List Node → Except Error Unit
  | [] => .ok ()
  | node :: nodes => do
    node.verdict
    verdictAll nodes

def verdictProperties : List Node → Except Error Unit
  | [] => .ok ()
  | .property key value :: properties => do
    key.keyVerdict
    value.verdict
    verdictProperties properties
  | _ :: _ => .error (.fault .misplacedExpression)

end

private theorem reports_propertyKey (h : Heap) (key : Node) :
    Reports (propertyKey h key) key.keyVerdict := by
  cases key <;> rfl

private theorem reports_fieldVerdict {field : Node} {next : Text → Unit → Except Error β}
    (later : ∀ name checked, Reports (next name checked) (.ok ())) :
    Reports (do
      let name ← memberName field
      next name (← checkedName name)) field.fieldVerdict := by
  unfold fieldVerdict
  cases memberName field with
  | error failure => rfl
  | ok name => exact (Reports.refl (checkedName name)).safely fun checked _ => later name checked

mutual

theorem reports_compile (h : Heap) : (node : Node) → ∀ (create : Bool) (free : Nat),
    Reports (node.compile h create free) node.verdict
  | .program body, _, free => (reports_compile h body false free).safely fun _ _ => rfl
  | .literal _, _, _ | .this, _, _ | .locals, _, _ | .parameter, _, _ | .property _ _, _, _
  | .foreign, _, _ => rfl
  | .array elements, _, free => (reports_compileAll h elements free).safely fun _ _ => rfl
  | .object properties, _, free => (reports_compileProperties h properties free).safely fun _ _ => rfl
  | .identifier name, _, _ => (Reports.refl (checkedName name)).safely fun _ _ => rfl
  | .member subject index true, create, free =>
    (reports_compile h subject create (free + 1)).bind fun inner _ =>
      (reports_compile h index false inner.settled.next).safely fun _ _ => rfl
  | .member subject field false, create, free =>
    (reports_compile h subject create (free + 1)).bind fun _ _ => reports_fieldVerdict fun _ _ => rfl
  | .call callee arguments, _, free =>
    (reports_compile h callee false free).bind fun target _ =>
      (reports_compileAll h arguments target.next).safely fun _ _ => rfl
  | .assignment left right, _, free => by
    refine (reports_compile h left true free).bind fun target compiled => ?_
    rw [← (becomes_of_compile left compiled).isSome_place]
    cases target.place with
    | none => rfl
    | some place => exact (reports_compile h right false target.next).safely fun _ _ => rfl

theorem reports_compileAll (h : Heap) : (nodes : List Node) → ∀ free : Nat,
    Reports (compileAll h nodes free) (verdictAll nodes)
  | [], _ => rfl
  | node :: nodes, free =>
    (reports_compile h node false free).bind fun first _ =>
      (reports_compileAll h nodes first.next).safely fun _ _ => rfl

theorem reports_compileProperties (h : Heap) : (properties : List Node) → ∀ free : Nat,
    Reports (compileProperties h properties free) (verdictProperties properties)
  | [], _ => rfl
  | .property key value :: properties, free =>
    (reports_propertyKey h key).bind fun _ _ =>
      (reports_compile h value false free).bind fun first _ =>
        (reports_compileProperties h properties first.next).safely fun _ _ => rfl
  | .program _ :: _, _ | .literal _ :: _, _ | .array _ :: _, _ | .object _ :: _, _ | .identifier _ :: _, _
  | .this :: _, _ | .locals :: _, _ | .member _ _ _ :: _, _ | .call _ _ :: _, _ | .assignment _ _ :: _, _
  | .parameter :: _, _ | .foreign :: _, _ => rfl

end

theorem verdict_right {left right : Node} (sound : (Node.assignment left right).verdict = .ok ()) :
    right.verdict = .ok () := by
  rw [verdict, bind_eq_ok] at sound
  obtain ⟨_, _, sound⟩ := sound
  split at sound
  · exact sound
  · cases sound

theorem reports_routine (h : Heap) (node : Node) : Reports (node.routine h) node.verdict :=
  (reports_compile h node false 0).safely fun _ _ => rfl

end Node

/-- An expression has an evaluator just if it has no offence: the routine that assigns to it has no other. -/
theorem Evaluator.reports_ofTree (h : Heap) (body : Node) (text : Text) :
    Reports (ofTree h (.program body) text) body.verdict := by
  have ran : Reports ((Node.program body).routine h) body.verdict := Node.reports_routine h _
  refine ran.safely fun routine made => ?_
  have sound : body.verdict = .ok () := ran.eq_ok made
  by_cases assignable : body.isAssignable
  · have assigning : Reports ((Node.program (.assignment body .parameter)).routine h) (.ok ()) := by
      have whole : (Node.program (.assignment body .parameter)).verdict = .ok () := by
        simp only [Node.verdict, sound, assignable, if_true]
        rfl
      exact whole ▸ Node.reports_routine h _
    obtain ⟨assigner, assignerMade⟩ := assigning.exists_ok
    simp only [assignable, if_true, assignerMade]
    rfl
  · simp only [assignable]
    rfl

/-- An evaluator can be assigned to just if its expression is a name or a member. -/
theorem Evaluator.isAssignable_of_ofTree {h : Heap} {body : Node} {text : Text} {evaluator : Evaluator}
    (made : ofTree h (.program body) text = .ok evaluator) : evaluator.isAssignable = body.isAssignable := by
  obtain ⟨_, _, _, _, assignable, rfl⟩ := parts_ofTree made
  exact assignable

theorem Evaluator.tree_of_ofTree {h : Heap} {body : Node} {text : Text} {evaluator : Evaluator}
    (made : ofTree h (.program body) text = .ok evaluator) : evaluator.tree = .program body := by
  obtain ⟨_, _, _, _, _, rfl⟩ := parts_ofTree made
  rfl

end GuardedExpr

import GuardedExpr.Proofs.Code.CheckedCode
import GuardedExpr.Proofs.Host.StandardMarks
import GuardedExpr.Proofs.Run.CheckedRuns

/-!
What a compiled expression is confined to, whatever the host does when it is called. All that a run does to
members and functions is in its journal, up to the end of the run or its failure.
-/

namespace GuardedExpr

variable {σ : Type}

inductive Evaluator.Use where
  | run
  | assign (value : Value)

namespace Evaluator

/-- A use of an evaluator on locals and a scope, from a heap and a state of the host on: its outcome, and
the machine that it leaves behind. -/
def outcome (evaluator : Evaluator) (host : Host σ) (use : Use) (locals scope : Value) (heap : Heap)
    (world : σ) : Except Error Value × Machine σ :=
  let part := match use with
    | .run => evaluator.run host locals scope
    | .assign value => evaluator.assign host scope value locals
  part.run.run ⟨heap, world, []⟩

/-- Both uses of an evaluator stay within what the primitives of a run and the host stay within. -/
theorem outcome_within {host : Host σ} {within : Machine σ → Machine σ → Prop}
    (permits : host.Permits within) (evaluator : Evaluator) (use : Use) (locals scope : Value)
    (heap : Heap) (world : σ) :
    within ⟨heap, world, []⟩ (evaluator.outcome host use locals scope heap world).2 := by
  cases use with
  | run => exact (evaluator.routine.staysWithin_run permits locals scope .null).last _
  | assign value =>
    unfold outcome assign
    cases evaluator.assigner with
    | none => exact (Run.staysWithin_throw permits _).last _
    | some routine => exact (routine.staysWithin_run permits locals scope value).last _

theorem IsCompiled.outcome_sound {evaluator : Evaluator} (compiled : evaluator.IsCompiled) {host : Host σ}
    {fit : Heap → Value → Prop} (fitness : Fitness host fit) (use : Use) {locals scope : Value}
    (heap : Heap) (localsFit : fit heap locals) (scopeFit : fit heap scope) (world : σ) :
    let ended := evaluator.outcome host use locals scope heap world
    ended.2.Sound fit ∧ ∀ value, ended.1 = .ok value → fit ended.2.heap value := by
  have conclude {part : Run σ Value} (leads : part.Leads ⟨heap, world, []⟩
      (fun value last => last.Sound fit ∧ fit last.heap value) (fun _ last => last.Sound fit)) :
      let ended := part.run.run ⟨heap, world, []⟩
      ended.2.Sound fit ∧ ∀ value, ended.1 = .ok value → fit ended.2.heap value := by
    obtain ⟨onValue, onFailure⟩ := Run.leads_iff.mp leads
    refine ⟨?_, fun value done => (onValue value done).2⟩
    cases done : (part.run.run ⟨heap, world, []⟩).1 with
    | ok value => exact (onValue value done).1
    | error failure => exact onFailure failure done
  obtain ⟨whole, assigning⟩ := compiled.isProper
  cases use with
  | run => exact conclude (Routine.leads_run_sound fitness whole _ rfl localsFit scopeFit .null)
  | assign value =>
    unfold outcome assign
    cases named : evaluator.assigner with
    | none =>
      apply conclude
      exact ⟨trivial, by simp⟩
    | some routine =>
      exact conclude
        (Routine.leads_run_sound fitness (assigning routine named) _ rfl localsFit scopeFit value)

end Evaluator

def Cell.registered : Cell → Cell
  | .object .box fields => .object .element fields
  | cell => cell

/-- A host that registers the class of boxes as one of nodes whenever it is called, so that all boxes are nodes. -/
def Host.registering : Host World :=
  ⟨fun _ _ heap world => (.ok .null, ⟨heap.cells.map Cell.registered⟩, world)⟩

theorem Fitness.any (host : Host σ) : Fitness host fun _ _ => True where
  scalar _ := trivial
  guarded _ := trivial
  list := trivial
  mapping := trivial
  alloc _ := trivial
  write _ _ := trivial
  call _ := trivial

def Event.memberUse? : Event → Option (Selector × Value)
  | .asked _ name _ => some (.name name, .text name)
  | .read _ selector key _ => some (selector, key)
  | .created _ selector key _ => some (selector, key)
  | .stored _ _ selector key _ => some (selector, key)
  | _ => none

theorem Event.Follows.presents {event : Event} {past : List Event} (follows : event.Follows past)
    {selector : Selector} {key : Value} (used : event.memberUse? = some (selector, key)) :
    selector.Presents past key := by
  cases event with
  | asked container name answer =>
    cases used
    exact ⟨rfl, follows⟩
  | read container selector key answer =>
    cases used
    exact follows
  | created container selector key made =>
    cases used
    exact follows
  | stored site container selector key value =>
    cases used
    exact follows
  | _ => cases used

theorem Guard.memberName_of_isSafeName {name : Text} (safe : Guard.isSafeName name) :
    Guard.memberName (.text name) = .ok () := by
  simp [memberName, safe]

namespace Evaluator

def named (members : List (String × Value)) : Entries :=
  members.map fun member => ([.text (Text.of member.1)], (.text (Text.of member.1), member.2))

theorem exists_compiled (h : Heap) (strict : Bool) (marks : Nat) (source : Text)
    (done : (ofSource h strict marks source).2.isOk) :
    ∃ evaluator, (ofSource h strict marks source).2 = .ok evaluator ∧ evaluator.IsCompiled := by
  cases made : (ofSource h strict marks source).2 with
  | ok evaluator => exact ⟨evaluator, rfl, h, strict, marks, source, made⟩
  | error failure =>
    rw [made] at done
    cases done

theorem exists_ofTree {h : Heap} {tree : Node} {text : Text} (done : (ofTree h tree text).isOk) :
    ∃ evaluator, ofTree h tree text = .ok evaluator := by
  cases made : ofTree h tree text with
  | ok evaluator => exact ⟨evaluator, rfl⟩
  | error failure =>
    rw [made] at done
    cases done

/-- Names are confined. Every key that a member is asked for, read, created or written under passes the guard
of names. It either stands in the body, or it was put into a slot, once in the whole run, and the guard
passed it there before its use and passed nothing else in that slot. -/
theorem IsCompiled.confines_names {evaluator : Evaluator} (compiled : evaluator.IsCompiled)
    (host : Host σ) (use : Use) (locals scope : Value) (heap : Heap) (world : σ) :
    let journal := (evaluator.outcome host use locals scope heap world).2.journal
    ∀ later event past, journal = later ++ event :: past →
      ∀ selector key, event.memberUse? = some (selector, key) →
        Guard.memberName key = .ok () ∧
          match selector with
          | .name name => key = .text name
          | .slot slot => .cleared slot key ∈ past ∧ Event.keptIn slot journal = [key] ∧
              ∀ other, .cleared slot other ∈ journal → other = key := by
  intro journal later event past divided selector key used
  have orderly : Event.Orderly journal :=
    (compiled.outcome_sound (Fitness.any host) use heap trivial trivial world).1.orderly
  have presents := (orderly.follows divided).presents used
  cases selector with
  | name name =>
    obtain ⟨rfl, safe⟩ := presents
    exact ⟨Guard.memberName_of_isSafeName safe, rfl⟩
  | slot slot =>
    have cleared : .cleared slot key ∈ journal := by
      rw [divided]
      exact List.mem_append_right _ (List.mem_cons_of_mem _ presents)
    obtain ⟨newer, older, found⟩ := List.append_of_mem cleared
    have passed : Guard.memberName key = .ok () := (orderly.follows found).2.2
    exact ⟨passed, presents, orderly.keptIn_of_checked (.inl cleared),
      fun _ also => orderly.eq_of_checked (.inl cleared) (.inl also)⟩

/-- Two names stand in the body, and the third is what the host answers. -/
theorem confines_names_of_computed_member :
    ∃ evaluator, (ofSource Heap.empty false 1 (Text.of "a[b()]")).2 = .ok evaluator ∧
      evaluator.IsCompiled ∧
      let heap : Heap := ⟨#[.mapping .plain (named [("a", .ref 1), ("b", .ref 2)]), .mapping .plain [],
        .function (Text.of "b") (.constant (.text (Text.of "c"))) []]⟩
      let journal := (evaluator.outcome (Host.standard 1) .run .null (.ref 0) heap .start).2.journal
      ∀ later event past, journal = later ++ event :: past →
        ∀ selector key, event.memberUse? = some (selector, key) →
          Guard.memberName key = .ok () ∧
            match selector with
            | .name name => key = .text name
            | .slot slot => .cleared slot key ∈ past ∧ Event.keptIn slot journal = [key] ∧
                ∀ other, .cleared slot other ∈ journal → other = key := by
  obtain ⟨evaluator, made, compiled⟩ :=
    exists_compiled Heap.empty false 1 (Text.of "a[b()]") (by decide +kernel)
  exact ⟨evaluator, made, compiled, compiled.confines_names _ _ _ _ _ _⟩

/-- Functions are confined. A function that is called was put into its slot once in the whole run, and the
guard of functions passed it there before the call and passed nothing else in that slot. No heap has it
among the classes of classes or the functions that work by reflection. -/
theorem IsCompiled.confines_functions {evaluator : Evaluator} (compiled : evaluator.IsCompiled)
    (host : Host σ) (use : Use) (locals scope : Value) (heap : Heap) (world : σ) :
    let journal := (evaluator.outcome host use locals scope heap world).2.journal
    ∀ later past slot callee arguments, journal = later ++ .invoked slot callee arguments :: past →
      .admitted slot callee ∈ past ∧ Event.keptIn slot journal = [callee] ∧
        (∀ other, .admitted slot other ∈ journal → other = callee) ∧
        ∀ h : Heap, h.classify callee ≠ .ok .constructor ∧ h.classify callee ≠ .ok .reflective := by
  intro journal later past slot callee arguments divided
  have orderly : Event.Orderly journal :=
    (compiled.outcome_sound (Fitness.any host) use heap trivial trivial world).1.orderly
  have admitted : .admitted slot callee ∈ past := orderly.follows divided
  have member : .admitted slot callee ∈ journal := by
    rw [divided]
    exact List.mem_append_right _ (List.mem_cons_of_mem _ admitted)
  obtain ⟨newer, older, found⟩ := List.append_of_mem member
  have admissible : callee.IsAdmissible := (orderly.follows found).2.2
  exact ⟨admitted, orderly.keptIn_of_checked (.inr member),
    fun _ also => orderly.eq_of_checked (.inr member) (.inr also), admissible.classify_ne⟩

/-- While the argument is computed, the method is replaced by a function that works by reflection. -/
theorem confines_functions_of_replaced_method :
    ∃ evaluator, (ofSource Heap.empty false 1 (Text.of "a.f(g())")).2 = .ok evaluator ∧
      evaluator.IsCompiled ∧
      let heap : Heap := ⟨#[.mapping .plain (named [("a", .ref 1), ("g", .ref 2)]),
        .mapping .plain (named [("f", .ref 3)]),
        .function (Text.of "g")
          (.put (.text (Text.of "f")) (.primitive (.reflective (Text.of "eval"))) (Text.of "a")) [],
        .function (Text.of "f") .first []]⟩
      let world : World := ⟨[], [(Text.of "a", .ref 1)], 1⟩
      let journal := (evaluator.outcome (Host.standard 1) .run .null (.ref 0) heap world).2.journal
      ∀ later past slot callee arguments, journal = later ++ .invoked slot callee arguments :: past →
        .admitted slot callee ∈ past ∧ Event.keptIn slot journal = [callee] ∧
          (∀ other, .admitted slot other ∈ journal → other = callee) ∧
          ∀ h : Heap, h.classify callee ≠ .ok .constructor ∧ h.classify callee ≠ .ok .reflective := by
  obtain ⟨evaluator, made, compiled⟩ :=
    exists_compiled Heap.empty false 1 (Text.of "a.f(g())") (by decide +kernel)
  exact ⟨evaluator, made, compiled, compiled.confines_functions _ _ _ _ _ _⟩

/-- Objects are confined, apart from numbers and texts. If neither the locals nor the scope are forbidden, and the host
leaves every container what it is, then no other forbidden value is a container of a member that is asked for, read or
written, an argument of a call, a value that is put into a member, an array or an object, or the value of the
expression. A run leaves every container what it is, so it does not matter when one looks. -/
theorem IsCompiled.confines_objects {evaluator : Evaluator} (compiled : evaluator.IsCompiled)
    {host : Host σ} (keeps : host.KeepsMarks) (use : Use) {locals scope : Value} {heap : Heap}
    (localsFree : heap.isForbidden locals = false) (scopeFree : heap.isForbidden scope = false)
    (world : σ) :
    let ended := evaluator.outcome host use locals scope heap world
    heap.Keeps ended.2.heap ∧
      (∀ event ∈ ended.2.journal, ∀ value ∈ event.objects, ended.2.heap.isForbidden value → value.isDerived) ∧
      ∀ value, ended.1 = .ok value → ended.2.heap.isForbidden value → value.isDerived := by
  intro ended
  obtain ⟨sound, result⟩ := compiled.outcome_sound (Fitness.free keeps) use heap (Heap.usable_of_free localsFree)
    (Heap.usable_of_free scopeFree) world
  exact ⟨evaluator.outcome_within keeps.permits use locals scope heap world, sound.objects, result⟩

/-- An assignment from outside, to a place in a scope that is an empty mapping. -/
theorem confines_objects_of_assignment :
    ∃ evaluator, (ofSource Heap.empty false 1 (Text.of "a.b")).2 = .ok evaluator ∧
      evaluator.IsCompiled ∧ (Host.standard 1).KeepsMarks ∧
      Heap.isForbidden ⟨#[.mapping .plain []]⟩ .null = false ∧
      Heap.isForbidden ⟨#[.mapping .plain []]⟩ (.ref 0) = false ∧
      let ended := evaluator.outcome (Host.standard 1) (.assign (.int 1)) .null (.ref 0)
        ⟨#[.mapping .plain []]⟩ .start
      Heap.Keeps ⟨#[.mapping .plain []]⟩ ended.2.heap ∧
        (∀ event ∈ ended.2.journal, ∀ value ∈ event.objects,
          ended.2.heap.isForbidden value → value.isDerived) ∧
        ∀ value, ended.1 = .ok value → ended.2.heap.isForbidden value → value.isDerived := by
  obtain ⟨evaluator, made, compiled⟩ :=
    exists_compiled Heap.empty false 1 (Text.of "a.b") (by decide +kernel)
  exact ⟨evaluator, made, compiled, Host.keepsMarks_standard 1, rfl, rfl,
    compiled.confines_objects (Host.keepsMarks_standard 1) _ rfl rfl _⟩

/-- A call may register the class of a value that was found fit to be an argument before, so that the value is a node
when it is passed. A text of a class that is registered is still taken for a text. And a method may put a node into a
list that the expression has built. -/
theorem uses_forbidden_objects :
    (let heap : Heap := ⟨#[.mapping .plain (named [("f", .ref 1), ("a", .ref 2), ("h", .ref 3)]),
        .function (Text.of "f") .first [], .object .box [], .function (Text.of "h") .first []]⟩
      ∃ evaluator, (ofSource heap false 1 (Text.of "f(a, h())")).2 = .ok evaluator ∧
        heap.isForbidden (.ref 0) = false ∧
        let ended := evaluator.outcome Host.registering .run .null (.ref 0) heap .start
        ∃ event ∈ ended.2.journal, ∃ value ∈ event.objects, ended.2.heap.isForbidden value) ∧
    (let node : Value := .derived ⟨Text.of "T", some .node⟩ (.text (Text.of "x"))
      let heap : Heap := ⟨#[.mapping .plain (named [("n", node)])]⟩
      ∃ evaluator, (ofSource heap false 1 (Text.of "n")).2 = .ok evaluator ∧ heap.isForbidden (.ref 0) = false ∧
        let ended := evaluator.outcome (Host.standard 1) .run .null (.ref 0) heap .start
        ended.1 = .ok node ∧ ended.2.heap.isForbidden node) ∧
    (let heap : Heap := ⟨#[.mapping .plain (named [("f", .ref 1), ("l", .ref 2)]), .function (Text.of "f") .first [],
        .list [.ref 3], .object .element []]⟩
      ∃ evaluator, (ofSource heap false 1 (Text.of "f(a = []).extend(l)")).2 = .ok evaluator ∧
        heap.isForbidden (.ref 0) = false ∧
        let ended := evaluator.outcome (Host.standard 1) .run .null (.ref 0) heap .start
        ended.1.isOk ∧ heap.size ≤ 5 ∧ ended.2.heap.cell 5 = .list [.ref 3] ∧ ended.2.heap.isForbidden (.ref 3)) := by
  refine ⟨?_, ?_, ?_⟩
  · intro heap
    have ran : (ofSource heap false 1 (Text.of "f(a, h())")).2.toOption.any fun evaluator =>
        let ended := evaluator.outcome Host.registering .run .null (.ref 0) heap .start
        ended.2.journal.any fun event => event.objects.any ended.2.heap.isForbidden := by
      decide +kernel
    obtain ⟨evaluator, made, ran⟩ := exists_eq_ok ran
    simp only [List.any_eq_true] at ran
    exact ⟨evaluator, made, rfl, ran⟩
  · intro node heap
    have ran : (ofSource heap false 1 (Text.of "n")).2.toOption.any fun evaluator =>
        let ended := evaluator.outcome (Host.standard 1) .run .null (.ref 0) heap .start
        ended.1.toOption.any fun value => value = node && ended.2.heap.isForbidden value := by
      decide +kernel
    obtain ⟨evaluator, made, ran⟩ := exists_eq_ok ran
    obtain ⟨value, done, both⟩ := exists_eq_ok ran
    obtain ⟨same, forbidden⟩ := Bool.and_eq_true_iff.mp both
    cases of_decide_eq_true same
    exact ⟨evaluator, made, rfl, done, forbidden⟩
  · intro heap
    have ran : (ofSource heap false 1 (Text.of "f(a = []).extend(l)")).2.toOption.any fun evaluator =>
        let ended := evaluator.outcome (Host.standard 1) .run .null (.ref 0) heap .start
        decide (ended.1.isOk ∧ heap.size ≤ 5 ∧ ended.2.heap.cell 5 = .list [.ref 3] ∧
          ended.2.heap.isForbidden (.ref 3)) := by
      decide +kernel
    obtain ⟨evaluator, made, ran⟩ := exists_eq_ok ran
    exact ⟨evaluator, made, rfl, of_decide_eq_true ran⟩

end Evaluator

end GuardedExpr

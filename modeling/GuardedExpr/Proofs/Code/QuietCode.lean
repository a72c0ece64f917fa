import GuardedExpr.Proofs.Code.CompilationRules
import GuardedExpr.Proofs.Code.SlotStandings
import GuardedExpr.Proofs.Node.TreeReading

/-!
Quiet code neither calls nor stores, and may be run any number of times. What an expression becomes that neither
calls nor assigns is quiet, and so are its statements; the left side of an assignment puts empty objects into
missing places, and nothing else.
-/

namespace GuardedExpr

namespace Code

mutual

/-- Whether running the code has no effect but to make arrays and objects. -/
def isQuiet : Code → Bool
  | .literal value _ => value.isScalar
  | .array items => areQuiet items
  | .object keys values => keys.all (·.1.isScalar) && areQuiet values
  | .member container _ => container.isQuiet
  | .guarded code => code.isQuiet
  | .call _ _ => false
  | .store _ _ _ _ => false
  | _ => true

def areQuiet : List Code → Bool
  | [] => true
  | code :: codes => code.isQuiet && areQuiet codes

end

mutual

theorem isVolatile_of_isQuiet : (code : Code) → code.isQuiet → code.isVolatile = false
  | .locals, _ | .scope, _ | .parameter, _ | .slot _, _ | .owner _, _ | .literal _ _, _ | .member _ _, _ => rfl
  | .array items, quiet => anyVolatile_of_areQuiet items quiet
  | .object _ values, quiet => anyVolatile_of_areQuiet values (Bool.and_eq_true_iff.mp quiet).2
  | .guarded code, quiet => isVolatile_of_isQuiet code quiet

theorem anyVolatile_of_areQuiet : (codes : List Code) → areQuiet codes → anyVolatile codes = false
  | [], _ => rfl
  | code :: codes, quiet => by
    obtain ⟨head, tail⟩ := Bool.and_eq_true_iff.mp quiet
    exact Bool.or_eq_false_iff.mpr ⟨isVolatile_of_isQuiet code head, anyVolatile_of_areQuiet codes tail⟩

end

mutual

def isPlain : Code → Bool
  | .locals | .scope | .slot _ => true
  | .literal value _ => value.isScalar
  | .array items => arePlain items
  | .object keys values => keys.all (·.1.isScalar) && keys.length == values.length && arePlain values
  | _ => false

def arePlain : List Code → Bool
  | [] => true
  | code :: codes => code.isPlain && arePlain codes

end

mutual

theorem isQuiet_of_isPlain : (code : Code) → code.isPlain → code.isQuiet
  | .locals, _ | .scope, _ | .slot _, _ => rfl
  | .literal _ _, scalar => scalar
  | .array items, plain => areQuiet_of_arePlain items plain
  | .object _ values, plain => by
    obtain ⟨keys, each⟩ := Bool.and_eq_true_iff.mp plain
    exact Bool.and_eq_true_iff.mpr ⟨(Bool.and_eq_true_iff.mp keys).1, areQuiet_of_arePlain values each⟩

theorem areQuiet_of_arePlain : (codes : List Code) → arePlain codes → areQuiet codes
  | [], _ => rfl
  | code :: codes, plain => by
    obtain ⟨head, tail⟩ := Bool.and_eq_true_iff.mp plain
    exact Bool.and_eq_true_iff.mpr ⟨isQuiet_of_isPlain code head, areQuiet_of_arePlain codes tail⟩

end

end Code

def Question.isQuiet : Question → Bool
  | .has container _ => container.isQuiet
  | .holds code => code.isQuiet

def Action.isQuiet : Action → Bool
  | .assign _ code => code.isQuiet
  | .create _ _ => false

namespace Statement

def isQuiet : Statement → Bool
  | .perform action => action.isQuiet
  | .guardedBy conditions action => conditions.all (·.question.isQuiet) && action.isQuiet
  | .checkObject code => code.isQuiet
  | .checkName _ => true
  | .checkFunction _ => true
  | .result code => code.isQuiet

/-- A statement that creates a member: a name, if neither the locals nor the scope have it, or a member of a
container, if that is false. -/
inductive FillsGap : Statement → Prop where
  | name (name : Text) : FillsGap (.guardedBy [(Question.has .locals name).no, (Question.holds .scope).yes,
      (Question.has .scope name).no] (.create .scope (.name name)))
  | member {container : Code} (plain : container.isPlain) (selector : Selector) :
      FillsGap (.guardedBy [(Question.holds (.member container selector)).no] (.create container selector))

abbrev AreQuiet (create : Bool) (statements : List Statement) : Prop :=
  ∀ statement ∈ statements, statement.isQuiet ∨ create ∧ statement.FillsGap

theorem AreQuiet.allow {statements : List Statement} (quiet : AreQuiet false statements) (create : Bool) :
    AreQuiet create statements := by
  intro statement member
  rcases quiet statement member with still | ⟨creates, _⟩
  · exact .inl still
  · cases creates

theorem AreQuiet.append {create : Bool} {first second : List Statement} (one : AreQuiet create first)
    (other : AreQuiet create second) : AreQuiet create (first ++ second) :=
  List.forall_mem_append.mpr ⟨one, other⟩

theorem areQuiet_singleton {create : Bool} {statement : Statement} (quiet : statement.isQuiet) :
    AreQuiet create [statement] :=
  List.forall_mem_singleton.mpr (.inl quiet)

end Statement

structure Fragment.IsQuiet (create : Bool) (fragment : Fragment) : Prop where
  statements : Statement.AreQuiet create fragment.statements
  plain : fragment.code.isPlain
  place : ∀ place, fragment.place = some place → place.container.isQuiet

theorem Fragment.IsQuiet.code {create : Bool} {fragment : Fragment} (quiet : fragment.IsQuiet create) :
    fragment.code.isQuiet :=
  Code.isQuiet_of_isPlain _ quiet.plain

theorem Fragment.IsQuiet.settled {create : Bool} {fragment : Fragment} (quiet : fragment.IsQuiet create) :
    fragment.settled = fragment := by
  rw [Fragment.settled, Code.isVolatile_of_isQuiet _ quiet.code]
  rfl

theorem Fragment.IsQuiet.spilled {create : Bool} {fragment : Fragment} (quiet : fragment.IsQuiet create) :
    Statement.AreQuiet create fragment.spilled.statements :=
  quiet.statements.append (Statement.areQuiet_singleton quiet.code)

private theorem areQuiet_resolution (name : Text) (create : Bool) (slot : Nat) :
    Statement.AreQuiet create (resolution name create slot) := by
  refine Statement.AreQuiet.append (.append (Statement.areQuiet_singleton rfl) ?_) ?_
  · cases create with
    | true => exact List.forall_mem_singleton.mpr (.inr ⟨rfl, .name name⟩)
    | false => exact nofun
  · exact .append (Statement.areQuiet_singleton rfl) (Statement.areQuiet_singleton rfl)

theorem areQuiet_access {container : Code} (plain : container.isPlain) (selector : Selector) (create : Bool)
    (slot : Nat) : Statement.AreQuiet create (access container selector create slot) := by
  have quiet := Code.isQuiet_of_isPlain container plain
  refine .append ?_ (Statement.areQuiet_singleton ?_)
  · cases create with
    | true => exact List.forall_mem_singleton.mpr (.inr ⟨rfl, .member plain selector⟩)
    | false => exact nofun
  · simp [Statement.isQuiet, Question.yes, Question.isQuiet, Action.isQuiet, Code.isQuiet, quiet]

namespace Node

theorem Becomes.isQuiet {h : Heap} {node : Node} {create : Bool} {free : Nat} {fragment : Fragment}
    (made : node.Becomes h create free fragment) (written : node.isWritten) (calm : node.acts = false) :
    fragment.IsQuiet create := by
  induction made with
  | program | parameter => cases written
  | call | assignment => cases calm
  | literal => exact ⟨nofun, written, nofun⟩
  | this | locals | noItems | noProperties => exact ⟨nofun, rfl, nofun⟩
  | item _ _ head tail =>
    obtain ⟨oneWritten, othersWritten⟩ := Bool.and_eq_true_iff.mp written
    obtain ⟨oneCalm, othersCalm⟩ := Bool.or_eq_false_iff.mp calm
    have first := head oneWritten oneCalm
    have others := tail othersWritten othersCalm
    exact ⟨(first.statements.allow _).append others.statements,
      Bool.and_eq_true_iff.mpr ⟨first.plain, others.plain⟩, nofun⟩
  | property keyed _ _ head tail =>
    obtain ⟨oneWritten, othersWritten⟩ := Bool.and_eq_true_iff.mp written
    obtain ⟨keyWritten, valueWritten⟩ := Bool.and_eq_true_iff.mp oneWritten
    obtain ⟨oneCalm, othersCalm⟩ := Bool.or_eq_false_iff.mp calm
    have scalar := isScalar_of_propertyKey keyWritten keyed
    have first := head valueWritten (Bool.or_eq_false_iff.mp oneCalm).2
    have others := tail othersWritten othersCalm
    refine ⟨(first.statements.allow _).append others.statements, ?_, nofun⟩
    have plain := others.plain
    simp only [Code.isPlain, Bool.and_eq_true, beq_iff_eq] at plain ⊢
    simp [Code.arePlain, scalar, plain, first.plain]
  | @identifier name _ create free =>
    refine ⟨areQuiet_resolution name create free, rfl, ?_⟩
    rintro place ⟨⟩
    rfl
  | @computed _ _ create free _ _ _ _ left right =>
    obtain ⟨subjectWritten, indexWritten⟩ := Bool.and_eq_true_iff.mp written
    obtain ⟨subjectCalm, indexCalm⟩ := Bool.or_eq_false_iff.mp calm
    have subject := left subjectWritten subjectCalm
    have key := right indexWritten indexCalm
    rw [subject.settled]
    refine ⟨?_, rfl, ?_⟩
    · exact ((subject.statements.append (key.spilled.allow create)).append
        (Statement.areQuiet_singleton rfl)).append (areQuiet_access subject.plain _ create free)
    · rintro place ⟨⟩
      exact subject.code
  | @named _ _ create free _ _ _ left =>
    have subject := left (Bool.and_eq_true_iff.mp written).1 (Bool.or_eq_false_iff.mp calm).1
    rw [subject.settled]
    refine ⟨subject.statements.append (areQuiet_access subject.plain _ create free), rfl, ?_⟩
    rintro place ⟨⟩
    exact subject.code

end Node

end GuardedExpr

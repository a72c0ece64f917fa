import GuardedExpr.Evaluator
import Mathlib.Tactic.SplitIfs

/-!
Trees that can be written down. The grammar makes literals of scalars alone, puts a program only at the
root and has no word for the value that is handed to an assignment from outside.
-/

namespace GuardedExpr

def Value.isScalar : Value → Bool
  | .null | .bool _ | .int _ | .float _ | .text _ => true
  | _ => false

namespace Node

mutual

/-- Whether a tree can be written as an expression. -/
def isWritten : Node → Bool
  | .literal value => value.isScalar
  | .array elements => areWritten elements
  | .object properties => areWrittenProperties properties
  | .identifier _ => true
  | .this => true
  | .locals => true
  | .member subject index _ => subject.isWritten && index.isWritten
  | .call callee arguments => callee.isWritten && areWritten arguments
  | .assignment left right => left.isWritten && right.isWritten
  | _ => false

def areWritten : List Node → Bool
  | [] => true
  | node :: nodes => node.isWritten && areWritten nodes

def areWrittenProperties : List Node → Bool
  | [] => true
  | .property key value :: properties =>
    key.isWritten && value.isWritten && areWrittenProperties properties
  | _ :: _ => false

end

theorem isScalar_of_propertyKey {h : Heap} {key : Node} (written : key.isWritten) {shown : Value × Text}
    (keyed : propertyKey h key = .ok shown) : shown.1.isScalar := by
  cases key with
  | identifier name =>
    cases keyed
    rfl
  | literal value =>
    cases keyed
    exact written
  | _ => cases keyed

end Node

def Token.areScalar (tokens : List Token) : Prop :=
  ∀ token ∈ tokens, token.value.isScalar

/-! Scanning makes tokens with scalar values only. -/

namespace Scanner

def IsScalar (s : Scanner) : Prop :=
  Token.areScalar s.produced

theorem produced_foldl_step (s : Scanner) (lexeme : Text) :
    (lexeme.foldl step s).produced = s.produced := by
  induction lexeme generalizing s with
  | nil => rfl
  | cons c rest ih =>
    rw [List.foldl_cons, ih]
    unfold step
    split <;> rfl

theorem isScalar_passing {s : Scanner} (scalar : s.IsScalar) (lexeme : Text) :
    (s.passing lexeme).IsScalar := by
  unfold IsScalar passing
  rw [produced_foldl_step]
  exact scalar

theorem isScalar_add {s : Scanner} (scalar : s.IsScalar) {token : Token}
    (added : token.value.isScalar) : (s.add token).IsScalar := by
  intro other member
  rcases List.mem_cons.mp member with same | earlier
  · exact same ▸ added
  · exact scalar other earlier

private theorem isScalar_numberValue {lexeme : Text} {mark : Nat} {value : Value}
    (converted : Lexeme.numberValue lexeme mark = .ok value) : value.isScalar := by
  unfold Lexeme.numberValue at converted
  split at converted
  · split at converted
    · cases converted
    · cases converted
      rfl
  · split at converted <;> cases converted <;> rfl

theorem isScalar_numeral {s : Scanner} (scalar : s.IsScalar) (lexeme : Text) :
    (s.numeral lexeme).1.IsScalar := by
  unfold numeral
  split
  next value converted =>
    exact isScalar_add (isScalar_passing scalar lexeme) (isScalar_numberValue converted)
  next => exact isScalar_passing scalar lexeme

private theorem isScalar_number {s : Scanner} (scalar : s.IsScalar) : s.number.1.IsScalar := by
  unfold number
  dsimp only
  split
  · exact isScalar_numeral scalar _
  · exact isScalar_numeral scalar _
  · exact isScalar_passing scalar _

private theorem isScalar_string {s : Scanner} (scalar : s.IsScalar) : s.string.1.IsScalar := by
  unfold string
  split
  · exact isScalar_passing scalar _
  · split
    · exact isScalar_add (isScalar_passing scalar _) rfl
    · exact isScalar_passing scalar _
    · exact isScalar_passing (isScalar_passing scalar _) _

private theorem isScalar_scan {s : Scanner} (scalar : s.IsScalar) : s.scan.1.IsScalar := by
  unfold scan
  split
  · exact scalar
  · split
    · exact isScalar_number scalar
    · split
      · exact isScalar_string scalar
      · split
        · exact isScalar_add (isScalar_passing scalar _) rfl
        · split
          · exact isScalar_add (isScalar_passing scalar _) rfl
          · split
            · exact isScalar_passing scalar _
            · exact scalar

private theorem isScalar_scanAll (rounds : Nat) {s : Scanner} (scalar : s.IsScalar) :
    (scanAll rounds s).1.IsScalar := by
  induction rounds generalizing s with
  | zero => exact scalar
  | succ rounds ih =>
    unfold scanAll
    split
    · have next := isScalar_scan scalar
      split
      next reached step =>
        rw [step] at next
        exact ih next
      next => exact next
    · exact scalar

private theorem isScalar_finish {s : Scanner} (scalar : s.IsScalar) : s.finish.1.IsScalar := by
  have last := isScalar_scanAll (s.source.length - s.offset) scalar
  unfold finish
  split
  next reached scanned =>
    rw [scanned] at last
    exact isScalar_add last rfl
  next => exact last

end Scanner

theorem areScalar_tokenize {source : Text} {tokens : List Token}
    (scanned : tokenize source = .ok tokens) : Token.areScalar tokens := by
  have last : (Scanner.start source).finish.1.IsScalar :=
    Scanner.isScalar_finish (fun _ member => nomatch member)
  unfold tokenize at scanned
  split at scanned
  next reached finished =>
    cases scanned
    rw [finished] at last
    intro token member
    exact last token (List.mem_reverse.mp member)
  next => cases scanned

theorem isScalar_remark (shift : Nat) {token : Token} (scalar : token.value.isScalar) :
    (token.remark shift).value.isScalar := by
  unfold Token.remark
  split
  · rfl
  · exact scalar

/-! Reading such tokens gives trees that are written. -/

namespace Reader

variable {α β : Type}

def Gives (reader : Reader α) (good : α → Prop) : Prop :=
  ∀ tokens : List Token, Token.areScalar tokens →
    Token.areScalar (reader.run.run tokens).2 ∧
      ∀ value, (reader.run.run tokens).1 = .ok value → good value

theorem gives_pure {good : α → Prop} {value : α} (holds : good value) :
    Gives (pure value) good :=
  fun _ scalar => ⟨scalar, fun _ same => Except.ok.inj same ▸ holds⟩

theorem gives_throw {good : α → Prop} (failure : Error) : Gives (throw failure) good :=
  fun _ scalar => ⟨scalar, fun _ impossible => nomatch impossible⟩

theorem gives_bind {reader : Reader β} {next : β → Reader α} {good : β → Prop} {better : α → Prop}
    (first : reader.Gives good) (second : ∀ value, good value → (next value).Gives better) :
    (reader >>= next).Gives better := by
  intro tokens scalar
  have result := first tokens scalar
  rw [ExceptT.run_bind, StateT.run_bind]
  revert result
  rcases reader.run.run tokens with ⟨outcome, rest⟩
  rintro ⟨left, holds⟩
  cases outcome with
  | error failure => exact ⟨left, fun _ impossible => nomatch impossible⟩
  | ok value => exact second value (holds value rfl) rest left

theorem gives_ite {good : α → Prop} {condition : Prop} [Decidable condition] {yes no : Reader α}
    (first : yes.Gives good) (second : no.Gives good) : (if condition then yes else no).Gives good := by
  split
  · exact first
  · exact second

theorem gives_current : current.Gives (·.value.isScalar) := by
  intro tokens scalar
  cases tokens with
  | nil => exact ⟨scalar, fun _ same => Except.ok.inj same ▸ rfl⟩
  | cons token rest =>
    exact ⟨scalar, fun _ same => Except.ok.inj same ▸ scalar token List.mem_cons_self⟩

theorem gives_skip : skip.Gives fun _ => True :=
  fun _ scalar => ⟨fun token member => scalar token (List.mem_of_mem_tail member), fun _ _ => trivial⟩

theorem gives_peek (expected : List Text) : (peek expected).Gives fun _ => True := by
  refine gives_bind gives_current fun token _ => ?_
  exact gives_ite (gives_pure trivial) (gives_ite (gives_pure trivial) (gives_pure trivial))

theorem gives_expect (expected : List Text) : (expect expected).Gives fun _ => True := by
  refine gives_bind (gives_peek expected) fun found _ => ?_
  cases found with
  | none => exact gives_pure trivial
  | some token => exact gives_bind gives_skip fun _ _ => gives_pure trivial

theorem gives_accept (mark : String) : (accept mark).Gives fun _ => True :=
  gives_bind (gives_expect _) fun _ _ => gives_pure trivial

theorem gives_sees (mark : String) : (sees mark).Gives fun _ => True :=
  gives_bind (gives_peek _) fun _ _ => gives_pure trivial

theorem gives_consume (expected : Text) : (consume expected).Gives fun _ => True := by
  refine gives_bind (gives_expect _) fun found _ => ?_
  cases found with
  | none => exact gives_bind gives_current fun _ _ => gives_throw _
  | some token => exact gives_pure trivial

theorem gives_identifier : identifier.Gives (·.isWritten) := by
  refine gives_bind gives_current fun token _ => gives_ite ?_ (gives_throw _)
  exact gives_bind gives_skip fun _ _ => gives_pure rfl

theorem gives_literal : literal.Gives (·.isWritten) := by
  refine gives_bind gives_current fun token scalar => gives_ite ?_ (gives_throw _)
  exact gives_bind gives_skip fun _ _ => gives_pure scalar

private theorem gives_key : key.Gives (·.isWritten) :=
  gives_bind gives_current fun _ _ => gives_ite gives_identifier gives_literal

private theorem isWritten_ofReserved {name : Text} {node : Node}
    (reserved : Node.ofReserved? name = some node) :
    node.isWritten := by
  unfold Node.ofReserved? at reserved
  split_ifs at reserved <;> cases reserved <;> rfl

private theorem gives_atom : atom.Gives (·.isWritten) := by
  refine gives_bind gives_current fun token _ => gives_ite ?_ gives_literal
  split
  next node reserved =>
    exact gives_bind gives_skip fun _ _ => gives_pure (isWritten_ofReserved reserved)
  next => exact gives_identifier

mutual

theorem gives_assignment : (fuel : Nat) → (assignment fuel).Gives (·.isWritten)
  | 0 => gives_throw _
  | fuel + 1 => by
    unfold assignment
    refine gives_bind (gives_primary fuel) fun left written => ?_
    refine gives_bind (gives_accept _) fun _ _ => gives_ite ?_ (gives_pure written)
    refine gives_bind (gives_primary fuel) fun right writtenToo => gives_pure ?_
    exact Bool.and_eq_true_iff.mpr ⟨written, writtenToo⟩

theorem gives_primary : (fuel : Nat) → (primary fuel).Gives (·.isWritten)
  | 0 => gives_throw _
  | fuel + 1 => by
    unfold primary
    refine gives_bind (gives_accept _) fun _ _ => gives_ite ?_ ?_
    · exact gives_bind (gives_array fuel) fun node written => gives_suffixes fuel node written
    refine gives_bind (gives_accept _) fun _ _ => gives_ite ?_ ?_
    · exact gives_bind (gives_object fuel) fun node written => gives_suffixes fuel node written
    · exact gives_bind gives_atom fun node written => gives_suffixes fuel node written

theorem gives_suffixes : (fuel : Nat) → (subject : Node) → subject.isWritten →
    (suffixes fuel subject).Gives (·.isWritten)
  | 0, _, _ => gives_throw _
  | fuel + 1, subject, written => by
    unfold suffixes
    refine gives_bind (gives_accept _) fun _ _ => gives_ite ?_ ?_
    · refine gives_bind gives_identifier fun field fieldWritten => gives_suffixes fuel _ ?_
      exact Bool.and_eq_true_iff.mpr ⟨written, fieldWritten⟩
    refine gives_bind (gives_accept _) fun _ _ => gives_ite ?_ ?_
    · refine gives_bind (gives_assignment fuel) fun index indexWritten => ?_
      refine gives_bind (gives_consume _) fun _ _ => gives_suffixes fuel _ ?_
      exact Bool.and_eq_true_iff.mpr ⟨written, indexWritten⟩
    refine gives_bind (gives_accept _) fun _ _ => gives_ite ?_ (gives_pure written)
    refine gives_bind (gives_arguments fuel) fun items itemsWritten => ?_
    refine gives_bind (gives_consume _) fun _ _ => gives_suffixes fuel _ ?_
    exact Bool.and_eq_true_iff.mpr ⟨written, itemsWritten⟩

private theorem gives_array : (fuel : Nat) → (array fuel).Gives (·.isWritten)
  | 0 => gives_throw _
  | fuel + 1 => by
    unfold array
    refine gives_bind (gives_elements fuel) fun items written => ?_
    exact gives_bind (gives_consume _) fun _ _ => gives_pure written

theorem gives_elements : (fuel : Nat) → (elements fuel).Gives (Node.areWritten ·)
  | 0 => gives_throw _
  | fuel + 1 => by
    unfold elements
    refine gives_bind (gives_sees _) fun _ _ => gives_ite (gives_pure rfl) ?_
    refine gives_bind (gives_assignment fuel) fun element written => ?_
    refine gives_bind (gives_accept _) fun _ _ => gives_ite ?_ ?_
    · refine gives_bind (gives_elements fuel) fun others othersWritten => gives_pure ?_
      exact Bool.and_eq_true_iff.mpr ⟨written, othersWritten⟩
    · exact gives_pure (Bool.and_eq_true_iff.mpr ⟨written, rfl⟩)

private theorem gives_object : (fuel : Nat) → (object fuel).Gives (·.isWritten)
  | 0 => gives_throw _
  | fuel + 1 => by
    unfold object
    refine gives_bind (gives_accept _) fun _ _ => gives_ite (gives_pure rfl) ?_
    refine gives_bind (gives_properties fuel) fun items written => ?_
    exact gives_bind (gives_consume _) fun _ _ => gives_pure written

theorem gives_properties : (fuel : Nat) → (properties fuel).Gives (Node.areWrittenProperties ·)
  | 0 => gives_throw _
  | fuel + 1 => by
    unfold properties
    refine gives_bind gives_key fun name nameWritten => ?_
    refine gives_bind (gives_consume _) fun _ _ => ?_
    refine gives_bind (gives_assignment fuel) fun value valueWritten => ?_
    have first := Bool.and_eq_true_iff.mpr ⟨nameWritten, valueWritten⟩
    refine gives_bind (gives_accept _) fun _ _ => gives_ite ?_ ?_
    · refine gives_bind (gives_properties fuel) fun others othersWritten => gives_pure ?_
      exact Bool.and_eq_true_iff.mpr ⟨first, othersWritten⟩
    · exact gives_pure (Bool.and_eq_true_iff.mpr ⟨first, rfl⟩)

private theorem gives_arguments : (fuel : Nat) → (arguments fuel).Gives (Node.areWritten ·)
  | 0 => gives_throw _
  | fuel + 1 => by
    unfold arguments
    refine gives_bind (gives_sees _) fun _ _ => gives_ite (gives_pure rfl) ?_
    exact gives_someArguments fuel

theorem gives_someArguments : (fuel : Nat) → (someArguments fuel).Gives (Node.areWritten ·)
  | 0 => gives_throw _
  | fuel + 1 => by
    unfold someArguments
    refine gives_bind (gives_assignment fuel) fun argument written => ?_
    refine gives_bind (gives_accept _) fun _ _ => gives_ite ?_ ?_
    · refine gives_bind (gives_someArguments fuel) fun others othersWritten => gives_pure ?_
      exact Bool.and_eq_true_iff.mpr ⟨written, othersWritten⟩
    · exact gives_pure (Bool.and_eq_true_iff.mpr ⟨written, rfl⟩)

end

private theorem gives_complete {production : Nat → Reader α} {good : α → Prop}
    (each : ∀ fuel, (production fuel).Gives good) : (complete production).Gives good := by
  have left : Gives (get : Reader (List Token)) fun _ => True :=
    fun _ scalar => ⟨scalar, fun _ _ => trivial⟩
  exact gives_bind left fun tokens _ => each (enough tokens)

private theorem gives_program (strict : Bool) :
    (program strict).Gives fun result => ∃ body, result.1 = .program body ∧ body.isWritten := by
  refine gives_bind (gives_complete gives_assignment) fun body written => ?_
  refine gives_bind (gives_peek _) fun leftover _ => ?_
  cases leftover with
  | none => exact gives_pure ⟨body, rfl, written⟩
  | some token => exact gives_ite (gives_throw _) (gives_pure ⟨body, rfl, written⟩)

end Reader

/-- Every tree that some source is read as is a program with a written body. -/
theorem Evaluator.isWritten_of_parse {strict : Bool} {marks : Nat} {source : Text} {tree : Node}
    {leftover : Option Token} (read : parse strict marks source = .ok (tree, leftover)) :
    ∃ body, tree = .program body ∧ body.isWritten := by
  unfold parse at read
  cases scanned : tokenize source with
  | error failure =>
    rw [scanned] at read
    cases read
  | ok tokens =>
    rw [scanned] at read
    have scalar : Token.areScalar (tokens.map (Token.remark marks)) := by
      intro token member
      obtain ⟨first, inside, rfl⟩ := List.mem_map.mp member
      exact isScalar_remark marks (areScalar_tokenize scanned first inside)
    exact (Reader.gives_program strict _ scalar).2 _ read

end GuardedExpr

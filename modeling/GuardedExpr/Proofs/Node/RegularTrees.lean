import GuardedExpr.Proofs.Code.CompileVerdict
import GuardedExpr.Proofs.Node.ReaderCompleteness

/-!
The trees that are spelled. What the grammar makes of tokens has names where names belong and scalars for literals,
so compiling it fails for a disallowed name or for the target of an assignment, and for nothing else.
-/

namespace GuardedExpr

def Node.isKey : Node → Bool
  | .identifier _ => true
  | .literal value => value.isScalar
  | _ => false

namespace Node

theorem isWritten_of_isKey {key : Node} (isKey : key.isKey) : key.isWritten := by
  cases key with
  | identifier => rfl
  | literal => exact isKey
  | _ => cases isKey

mutual

/-- Whether a tree is such as the grammar makes. -/
def isRegular : Node → Bool
  | .literal value => value.isScalar
  | .array elements => areRegular elements
  | .object properties => areRegularProperties properties
  | .identifier _ => true
  | .this => true
  | .locals => true
  | .member subject key true => subject.isRegular && key.isRegular
  | .member subject (.identifier _) false => subject.isRegular
  | .call callee arguments => callee.isRegular && areRegular arguments
  | .assignment left right => left.isRegular && right.isRegular
  | _ => false

def areRegular : List Node → Bool
  | [] => true
  | node :: nodes => node.isRegular && areRegular nodes

def areRegularProperties : List Node → Bool
  | [] => true
  | .property key value :: properties => key.isKey && value.isRegular && areRegularProperties properties
  | _ :: _ => false

end

end Node

def Phrase.IsRegular : Phrase → Prop
  | .expression node => node.isRegular
  | .primary node => node.isRegular
  | .items nodes => Node.areRegular nodes
  | .properties nodes => Node.areRegularProperties nodes

private theorem isRegular_ofReserved {name : Text} {node : Node}
    (reserved : Node.ofReserved? name = some node) :
    node.isRegular := by
  unfold Node.ofReserved? at reserved
  split_ifs at reserved <;> cases reserved <;> rfl

theorem isKey_of_token {token : Token} {key : Node} (scalar : token.value.isScalar) (is : token.IsKey key) :
    key.isKey := by
  cases is with
  | name _ => rfl
  | literal _ => exact scalar

@[simp]
theorem areScalar_append {ts us : List Token} :
    Token.areScalar (ts ++ us) ↔ Token.areScalar ts ∧ Token.areScalar us :=
  List.forall_mem_append

@[simp]
theorem areScalar_cons {token : Token} {ts : List Token} :
    Token.areScalar (token :: ts) ↔ token.value.isScalar ∧ Token.areScalar ts :=
  List.forall_mem_cons

private theorem isRegular_of_spells {ts : List Token} {phrase : Phrase} (spelled : Spells ts phrase)
    (scalar : Token.areScalar ts) : phrase.IsRegular := by
  induction spelled with
  | expression _ hypothesis => exact hypothesis scalar
  | reserved _ reserved => exact isRegular_ofReserved reserved
  | name _ _ => rfl
  | literal _ => exact scalar _ List.mem_cons_self
  | emptyArray _ _ => rfl
  | emptyObject _ _ => rfl
  | assignment _ _ _ left right =>
    obtain ⟨first, _, second⟩ := (areScalar_append.trans (and_congr_right' areScalar_cons)).mp scalar
    exact Bool.and_eq_true_iff.mpr ⟨left first, right second⟩
  | array _ _ _ hypothesis => exact hypothesis (areScalar_append.mp (areScalar_cons.mp scalar).2).1
  | arrayWithComma _ _ _ _ hypothesis => exact hypothesis (areScalar_append.mp (areScalar_cons.mp scalar).2).1
  | object _ _ _ hypothesis => exact hypothesis (areScalar_append.mp (areScalar_cons.mp scalar).2).1
  | field _ _ _ hypothesis => exact hypothesis (areScalar_append.mp scalar).1
  | index _ _ _ _ subject key =>
    obtain ⟨first, _, second, _⟩ : _ ∧ _ ∧ _ ∧ _ := by simpa using scalar
    exact Bool.and_eq_true_iff.mpr ⟨subject first, key second⟩
  | emptyCall _ _ _ hypothesis =>
    exact Bool.and_eq_true_iff.mpr ⟨hypothesis (areScalar_append.mp scalar).1, rfl⟩
  | call _ _ _ _ callee arguments =>
    obtain ⟨first, _, second, _⟩ : _ ∧ _ ∧ _ ∧ _ := by simpa using scalar
    exact Bool.and_eq_true_iff.mpr ⟨callee first, arguments second⟩
  | item _ hypothesis => exact Bool.and_eq_true_iff.mpr ⟨hypothesis scalar, rfl⟩
  | items _ _ _ first others =>
    obtain ⟨head, _, tail⟩ := (areScalar_append.trans (and_congr_right' areScalar_cons)).mp scalar
    exact Bool.and_eq_true_iff.mpr ⟨first head, others tail⟩
  | property is _ _ hypothesis =>
    obtain ⟨key, _, value⟩ : _ ∧ _ ∧ _ := by simpa using scalar
    exact Bool.and_eq_true_iff.mpr ⟨Bool.and_eq_true_iff.mpr ⟨isKey_of_token key is, hypothesis value⟩, rfl⟩
  | properties is _ _ _ _ first others =>
    obtain ⟨key, _, head, _, tail⟩ : _ ∧ _ ∧ _ ∧ _ ∧ _ := by simpa using scalar
    exact Bool.and_eq_true_iff.mpr
      ⟨Bool.and_eq_true_iff.mpr ⟨isKey_of_token key is, first head⟩, others tail⟩

theorem areScalar_remark {tokens : List Token} (scalar : Token.areScalar tokens) (marks : Nat) :
    Token.areScalar (tokens.map (Token.remark marks)) := by
  intro token member
  obtain ⟨first, inside, rfl⟩ := List.mem_map.mp member
  exact isScalar_remark marks (scalar first inside)

/-- What a source is read as is regular, and where it is not read the reader met a token that it did not expect, or
the scanner failed. -/
theorem Evaluator.parse_regular (strict : Bool) (marks : Nat) (source : Text) :
    match Evaluator.parse strict marks source with
    | .ok (tree, _) => ∃ body, tree = .program body ∧ body.isRegular
    | .error failure => failure.isReported ∨ tokenize source = .error failure := by
  cases scanned : tokenize source with
  | error failure =>
    rw [Evaluator.parse, scanned]
    exact .inr rfl
  | ok tokens =>
    obtain ⟨body, last, split, _, _, lexical⟩ := lexical_of_tokenize marks scanned
    have scalar := areScalar_remark (areScalar_tokenize scanned) marks
    have takes := Reader.ofTokens_takes strict lexical
    rw [← split] at takes
    have same : Evaluator.parse strict marks source = Node.ofTokens strict (tokens.map (Token.remark marks)) := by
      rw [Evaluator.parse, scanned]
      rfl
    rw [same]
    cases read : Node.ofTokens strict (tokens.map (Token.remark marks)) with
    | error failure =>
      rw [read] at takes
      obtain ⟨expected, position, rfl⟩ := takes
      exact .inl rfl
    | ok result =>
      obtain ⟨tree, leftover⟩ := result
      rw [read] at takes
      obtain ⟨taken, rest, a, whole, rfl, spelled, _⟩ := takes
      rw [whole] at scalar
      exact ⟨a, rfl, isRegular_of_spells spelled (areScalar_append.mp scalar).1⟩

/-! Compilation of regular trees. -/

variable {α β : Type}

theorem bind_eq_error {first : Except Error α} {next : α → Except Error β} {failure : Error} :
    first >>= next = .error failure ↔
      first = .error failure ∨ ∃ value, first = .ok value ∧ next value = .error failure := by
  cases first with
  | error other =>
    constructor
    · exact fun failed => .inl (congrArg Except.error (Except.error.inj failed))
    · rintro (failed | ⟨_, impossible, _⟩)
      · exact congrArg Except.error (Except.error.inj failed)
      · cases impossible
  | ok value =>
    constructor
    · exact fun failed => .inr ⟨value, rfl, failed⟩
    · rintro (impossible | ⟨_, ⟨⟩, failed⟩)
      · cases impossible
      · exact failed

namespace Node

theorem isReported_of_checkedName {name : Text} {failure : Error} (failed : checkedName name = .error failure) :
    failure.isReported := by
  unfold checkedName Guard.memberName at failed
  dsimp only at failed
  split at failed <;> cases failed
  rfl

mutual

theorem isReported_of_verdict {failure : Error} : (node : Node) → node.isRegular → node.verdict = .error failure →
    failure.isReported
  | .array elements, regular, failed => isReported_of_verdictAll elements regular failed
  | .object properties, regular, failed => isReported_of_verdictProperties properties regular failed
  | .identifier name, _, failed => isReported_of_checkedName failed
  | .member subject key true, regular, failed => by
    obtain ⟨one, other⟩ := Bool.and_eq_true_iff.mp regular
    rcases bind_eq_error.mp failed with first | ⟨_, _, second⟩
    · exact isReported_of_verdict subject one first
    · exact isReported_of_verdict key other second
  | .member subject (.identifier name) false, regular, failed => by
    rcases bind_eq_error.mp failed with first | ⟨_, _, second⟩
    · exact isReported_of_verdict subject regular first
    · exact isReported_of_checkedName second
  | .call callee arguments, regular, failed => by
    obtain ⟨one, others⟩ := Bool.and_eq_true_iff.mp regular
    rcases bind_eq_error.mp failed with first | ⟨_, _, second⟩
    · exact isReported_of_verdict callee one first
    · exact isReported_of_verdictAll arguments others second
  | .assignment left right, regular, failed => by
    obtain ⟨one, other⟩ := Bool.and_eq_true_iff.mp regular
    rcases bind_eq_error.mp failed with first | ⟨_, _, second⟩
    · exact isReported_of_verdict left one first
    · split at second
      · exact isReported_of_verdict right other second
      · cases second
        rfl

theorem isReported_of_verdictAll {failure : Error} : (nodes : List Node) → areRegular nodes →
    verdictAll nodes = .error failure → failure.isReported
  | node :: nodes, regular, failed => by
    obtain ⟨one, others⟩ := Bool.and_eq_true_iff.mp regular
    rcases bind_eq_error.mp failed with first | ⟨_, _, second⟩
    · exact isReported_of_verdict node one first
    · exact isReported_of_verdictAll nodes others second

theorem isReported_of_verdictProperties {failure : Error} : (properties : List Node) →
    areRegularProperties properties → verdictProperties properties = .error failure → failure.isReported
  | .property key value :: properties, regular, failed => by
    obtain ⟨both, others⟩ := Bool.and_eq_true_iff.mp regular
    obtain ⟨isKey, one⟩ := Bool.and_eq_true_iff.mp both
    rcases bind_eq_error.mp failed with first | ⟨_, _, rest⟩
    · cases key with
      | identifier | literal => cases first
      | _ => cases isKey
    rcases bind_eq_error.mp rest with second | ⟨_, _, third⟩
    · exact isReported_of_verdict value one second
    · exact isReported_of_verdictProperties properties others third

end

end Node

/-- A regular tree has an evaluator, or has none for a disallowed name or a target that names no place. -/
theorem Evaluator.isReported_of_ofTree {h : Heap} {body : Node} {text : Text} {failure : Error}
    (regular : body.isRegular) (failed : ofTree h (.program body) text = .error failure) : failure.isReported := by
  have reports := reports_ofTree h body text
  rw [failed] at reports
  exact Node.isReported_of_verdict body regular reports.symm

/-! What such a tree becomes does not depend on the heap. -/

section Heaps

variable {a b : Heap}

theorem Heap.escape_congr {value : Value} (scalar : value.isScalar) : b.escape value = a.escape value := by
  cases value with
  | bool truth => cases truth <;> rfl
  | null | int _ | float _ | text _ => rfl
  | _ => cases scalar

namespace Node

private theorem propertyKey_congr {key : Node} (isKey : key.isKey) :
    propertyKey b key = propertyKey a key := by
  cases key with
  | identifier name => rfl
  | literal value => rw [propertyKey, propertyKey, Heap.escape_congr isKey]
  | _ => rfl

mutual

theorem compile_congr : (node : Node) → node.isRegular → ∀ create free,
    node.compile b create free = node.compile a create free
  | .literal value, scalar, _, _ => by rw [compile, compile, Heap.escape_congr scalar]
  | .array elements, regular, _, _ => by rw [compile, compile, compileAll_congr elements regular]
  | .object properties, regular, _, _ => by rw [compile, compile, compileProperties_congr properties regular]
  | .identifier _, _, _, _ | .this, _, _, _ | .locals, _, _, _ => rfl
  | .member subject key true, regular, _, _ => by
    obtain ⟨one, other⟩ := Bool.and_eq_true_iff.mp regular
    simp only [compile, compile_congr subject one, compile_congr key other]
  | .member subject (.identifier name) false, regular, _, _ => by
    have one : subject.isRegular := regular
    simp only [compile, compile_congr subject one]
  | .call callee arguments, regular, _, _ => by
    obtain ⟨one, others⟩ := Bool.and_eq_true_iff.mp regular
    simp only [compile, compile_congr callee one, compileAll_congr arguments others]
  | .assignment left right, regular, _, _ => by
    obtain ⟨one, other⟩ := Bool.and_eq_true_iff.mp regular
    simp only [compile, compile_congr left one, compile_congr right other]

theorem compileAll_congr : (nodes : List Node) → areRegular nodes → ∀ free,
    compileAll b nodes free = compileAll a nodes free
  | [], _, _ => rfl
  | node :: nodes, regular, _ => by
    obtain ⟨one, others⟩ := Bool.and_eq_true_iff.mp regular
    simp only [compileAll, compile_congr node one, compileAll_congr nodes others]

theorem compileProperties_congr : (properties : List Node) → areRegularProperties properties → ∀ free,
    compileProperties b properties free = compileProperties a properties free
  | [], _, _ => rfl
  | .property key value :: properties, regular, _ => by
    obtain ⟨both, others⟩ := Bool.and_eq_true_iff.mp regular
    obtain ⟨isKey, one⟩ := Bool.and_eq_true_iff.mp both
    simp only [compileProperties, propertyKey_congr (a := a) isKey, compile_congr value one,
      compileProperties_congr properties others]

end

end Node

private theorem Evaluator.ofTree_congr {body : Node} (regular : body.isRegular) (text : Text) :
    ofTree b (.program body) text = ofTree a (.program body) text := by
  simp only [ofTree, Node.routine, Node.compile, Node.compile_congr (a := a) body regular]

theorem Evaluator.ofSource_congr (strict : Bool) (marks : Nat) (source : Text) :
    ofSource b strict marks source = ofSource a strict marks source := by
  have reads := parse_regular strict marks source
  unfold ofSource
  cases parsed : parse strict marks source with
  | error failure => rfl
  | ok result =>
    obtain ⟨tree, leftover⟩ := result
    rw [parsed] at reads
    obtain ⟨body, rfl, regular⟩ := reads
    dsimp only
    rw [ofTree_congr (a := a) regular]

end Heaps

end GuardedExpr

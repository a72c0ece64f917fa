import GuardedExpr.Proofs.Code.CompilationRules
import GuardedExpr.Proofs.Node.RegularTrees
import GuardedExpr.Proofs.Text.GraphicText

/-!
Listings are legible: whatever stands in the strings and the keys of a source, each statement of its evaluator takes
one line. All that a listing shows of a source is names, and these are words, and scalars, and these are shown by
graphic texts.
-/

namespace GuardedExpr

open Text (IsGraphic)

def Token.AreLegible (tokens : List Token) : Prop :=
  ∀ token ∈ tokens, token.value.isScalar ∧ (token.kind = .identifier → Lexeme.IsName token.text)

theorem areLegible_append {ts us : List Token} :
    Token.AreLegible (ts ++ us) ↔ Token.AreLegible ts ∧ Token.AreLegible us :=
  List.forall_mem_append

theorem areLegible_cons {token : Token} {ts : List Token} :
    Token.AreLegible (token :: ts) ↔
      (token.value.isScalar ∧ (token.kind = .identifier → Lexeme.IsName token.text)) ∧ Token.AreLegible ts :=
  List.forall_mem_cons

namespace Node

mutual

/-- The names in a tree, those behind points among them, are words, and its literals are scalars. The name of a
property may be any text. -/
def IsLegible : Node → Prop
  | .program body => body.IsLegible
  | .this | .locals | .parameter => True
  | .literal value => value.isScalar
  | .array elements => AreLegible elements
  | .object properties => AreLegible properties
  | .property (.literal key) value => key.isScalar ∧ value.IsLegible
  | .property _ value => value.IsLegible
  | .identifier name => Lexeme.IsName name
  | .member subject key true => subject.IsLegible ∧ key.IsLegible
  | .member subject (.identifier field) false => subject.IsLegible ∧ Lexeme.IsName field
  | .call callee arguments => callee.IsLegible ∧ AreLegible arguments
  | .assignment left right => left.IsLegible ∧ right.IsLegible
  | _ => False

def AreLegible : List Node → Prop
  | [] => True
  | node :: nodes => node.IsLegible ∧ AreLegible nodes

end

end Node

def Phrase.IsLegible : Phrase → Prop
  | .expression node => node.IsLegible
  | .primary node => node.IsLegible
  | .items nodes => Node.AreLegible nodes
  | .properties nodes => Node.AreLegible nodes

theorem isLegible_property {token : Token} {key value : Node} (is : token.IsKey key) (scalar : token.value.isScalar)
    (legible : value.IsLegible) : (Node.property key value).IsLegible := by
  cases is with
  | name _ => exact legible
  | literal _ => exact ⟨scalar, legible⟩

private theorem isLegible_of_spells {ts : List Token} {phrase : Phrase} (spelled : Spells ts phrase)
    (tokens : Token.AreLegible ts) : phrase.IsLegible := by
  induction spelled with
  | expression _ ih => exact ih tokens
  | reserved _ reserved =>
    unfold Node.ofReserved? at reserved
    split_ifs at reserved <;> cases reserved <;> trivial
  | name is _ => exact (areLegible_cons.mp tokens).1.2 is
  | literal _ => exact (areLegible_cons.mp tokens).1.1
  | emptyArray _ _ => trivial
  | emptyObject _ _ => trivial
  | assignment _ _ _ left right =>
    obtain ⟨first, second⟩ := areLegible_append.mp tokens
    exact ⟨left first, right (areLegible_cons.mp second).2⟩
  | array _ _ _ ih => exact ih (areLegible_append.mp (areLegible_cons.mp tokens).2).1
  | arrayWithComma _ _ _ _ ih => exact ih (areLegible_append.mp (areLegible_cons.mp tokens).2).1
  | object _ _ _ ih => exact ih (areLegible_append.mp (areLegible_cons.mp tokens).2).1
  | field _ is _ ih =>
    obtain ⟨first, second⟩ := areLegible_append.mp tokens
    exact ⟨ih first, (areLegible_cons.mp (areLegible_cons.mp second).2).1.2 is⟩
  | index _ _ _ _ subject key =>
    obtain ⟨first, rest⟩ := areLegible_append.mp tokens
    exact ⟨subject first, key (areLegible_append.mp (areLegible_cons.mp rest).2).1⟩
  | emptyCall _ _ _ ih => exact ⟨ih (areLegible_append.mp tokens).1, trivial⟩
  | call _ _ _ _ callee arguments =>
    obtain ⟨first, rest⟩ := areLegible_append.mp tokens
    exact ⟨callee first, arguments (areLegible_append.mp (areLegible_cons.mp rest).2).1⟩
  | item _ ih => exact ⟨ih tokens, trivial⟩
  | items _ _ _ first others =>
    obtain ⟨head, rest⟩ := areLegible_append.mp tokens
    exact ⟨first head, others (areLegible_cons.mp rest).2⟩
  | property is _ _ ih =>
    obtain ⟨key, rest⟩ := areLegible_cons.mp tokens
    exact ⟨isLegible_property is key.1 (ih (areLegible_cons.mp rest).2), trivial⟩
  | properties is _ _ _ _ first others =>
    obtain ⟨key, rest⟩ := areLegible_cons.mp tokens
    obtain ⟨head, rest⟩ := areLegible_append.mp (areLegible_cons.mp rest).2
    exact ⟨isLegible_property is key.1 (first head), others (areLegible_cons.mp rest).2⟩

theorem Evaluator.exists_legible_of_parse {strict : Bool} {marks : Nat} {source : Text} {tree : Node}
    {leftover : Option Token} (read : parse strict marks source = .ok (tree, leftover)) :
    ∃ body tokens, tree = .program body ∧ Spells tokens (.expression body) ∧ Token.AreLegible tokens := by
  obtain ⟨tokens, taken, rest, body, scanned, split, lexical, rfl, spelled⟩ := exists_spells_of_parse read
  have scalar := areScalar_remark (areScalar_tokenize scanned) marks
  rw [split] at scalar
  refine ⟨body, taken, rfl, spelled, fun token member => ?_⟩
  have inside : token ∈ taken ++ rest := List.mem_append_left _ member
  refine ⟨scalar token inside, fun kind => ?_⟩
  have shape := lexical token inside
  rw [kind] at shape
  exact shape

private theorem Evaluator.isLegible_of_parse {strict : Bool} {marks : Nat} {source : Text}
    {tree : Node}
    {leftover : Option Token} (read : parse strict marks source = .ok (tree, leftover)) :
    ∃ body, tree = .program body ∧ body.IsLegible := by
  obtain ⟨body, tokens, rfl, spelled, legible⟩ := exists_legible_of_parse read
  exact ⟨body, rfl, isLegible_of_spells spelled legible⟩

/-! Listings of code. -/

theorem isGraphic_slotName (index : Nat) : (slotName index).IsGraphic :=
  IsGraphic.append rfl (Numeral.isGraphic_decimal index)

def Selector.IsLegible (selector : Selector) : Prop :=
  ∀ container : Text, container.IsGraphic → (selector.listing container).IsGraphic

private theorem Selector.isLegible_slot (index : Nat) : (Selector.slot index).IsLegible :=
  fun _ container => .append (.append (.append container rfl) (isGraphic_slotName index)) rfl

theorem Selector.isLegible_name {name : Text} (word : Lexeme.IsName name) : (Selector.name name).IsLegible :=
  fun _ container => .append (.append container rfl) (Text.isGraphic_of_isName word)

theorem isGraphic_hasListing {container : Text} (graphic : container.IsGraphic) (name : Text) :
    (hasListing container name).IsGraphic :=
  .append (.append (.append (.append rfl graphic) rfl) (Text.isGraphic_escaped name)) rfl

def Code.AreLegible (codes : List Code) : Prop :=
  ∀ code ∈ codes, code.listing.IsGraphic

theorem Code.isGraphic_listings {codes : List Code} (legible : AreLegible codes) :
    ∀ piece ∈ listings codes, piece.IsGraphic := by
  induction codes with
  | nil => exact List.forall_mem_nil _
  | cons code codes hypothesis =>
    obtain ⟨first, others⟩ := List.forall_mem_cons.mp legible
    exact List.forall_mem_cons.mpr ⟨first, hypothesis others⟩

private theorem Code.isGraphic_pairListings {keys : List (Value × Text)} {codes : List Code}
    (shown : ∀ key ∈ keys, key.2.IsGraphic) (legible : AreLegible codes) :
    ∀ piece ∈ pairListings keys codes, piece.IsGraphic := by
  induction keys generalizing codes with
  | nil => simp [pairListings]
  | cons key keys hypothesis =>
    cases codes with
    | nil => simp [pairListings]
    | cons code codes =>
      obtain ⟨one, more⟩ := List.forall_mem_cons.mp shown
      obtain ⟨first, others⟩ := List.forall_mem_cons.mp legible
      exact List.forall_mem_cons.mpr ⟨.append (.append one rfl) first, hypothesis more others⟩

theorem Code.isGraphic_guarded {code : Code} (graphic : code.listing.IsGraphic) :
    (Code.guarded code).listing.IsGraphic :=
  .append (.append rfl graphic) rfl

def Code.IsLegible : Code → Prop
  | .array items => AreLegible items
  | .object keys values => (∀ key ∈ keys, key.2.IsGraphic) ∧ AreLegible values
  | code => code.listing.IsGraphic

theorem Code.IsLegible.isGraphic {code : Code} (legible : code.IsLegible) : code.listing.IsGraphic := by
  cases code with
  | array => exact .append (.append rfl (Text.isGraphic_join rfl (isGraphic_listings legible))) rfl
  | object => exact .append (.append rfl (Text.isGraphic_join rfl (isGraphic_pairListings legible.1 legible.2))) rfl
  | _ => exact legible

def Statement.AreLegible (statements : List Statement) : Prop :=
  ∀ statement ∈ statements, statement.listing.IsGraphic

theorem Statement.areLegible_append {first second : List Statement} :
    AreLegible (first ++ second) ↔ AreLegible first ∧ AreLegible second :=
  List.forall_mem_append

theorem isGraphic_assign {code : Code} (slot : Nat) (graphic : code.listing.IsGraphic) :
    (Action.assign slot code).listing.IsGraphic :=
  .append (.append (isGraphic_slotName slot) rfl) graphic

theorem isGraphic_create {container : Code} {selector : Selector} (graphic : container.listing.IsGraphic)
    (keyed : selector.IsLegible) : (Action.create container selector).listing.IsGraphic :=
  .append (keyed _ graphic) rfl

theorem isGraphic_guardedBy {conditions : List Condition} {action : Action}
    (asked : ∀ condition ∈ conditions, condition.question.listing.IsGraphic) (graphic : action.listing.IsGraphic) :
    (Statement.guardedBy conditions action).listing.IsGraphic := by
  have shown : ∀ piece ∈ conditions.map Condition.listing, piece.IsGraphic := by
    intro piece member
    obtain ⟨condition, inside, rfl⟩ := List.mem_map.mp member
    have question := asked condition inside
    unfold Condition.listing
    split
    · exact .append (.append rfl question) rfl
    · exact question
  exact .append (.append (.append rfl (Text.isGraphic_join rfl shown)) rfl) graphic

theorem isGraphic_checkObject {code : Code} (graphic : code.listing.IsGraphic) :
    (Statement.checkObject code).listing.IsGraphic :=
  .append (.append rfl graphic) rfl

private theorem areLegible_resolution {name : Text} (word : Lexeme.IsName name) (create : Bool)
    (slot : Nat) :
    Statement.AreLegible (resolution name create slot) := by
  have keyed := Selector.isLegible_name word
  have l : Code.locals.listing.IsGraphic := rfl
  have s : Code.scope.listing.IsGraphic := rfl
  have locals : (Question.has .locals name).listing.IsGraphic := isGraphic_hasListing l name
  have scope : (Question.has .scope name).listing.IsGraphic := isGraphic_hasListing s name
  have holds : (Question.holds .scope).listing.IsGraphic := s
  have reading (container : Code) (graphic : container.listing.IsGraphic) :
      (Action.assign slot (.member container (.name name))).listing.IsGraphic := isGraphic_assign slot (keyed _ graphic)
  refine Statement.areLegible_append.mpr ⟨Statement.areLegible_append.mpr ⟨?_, ?_⟩, ?_⟩
  · exact List.forall_mem_singleton.mpr (isGraphic_guardedBy (by simpa [Question.yes] using locals) (reading .locals l))
  · split
    · refine List.forall_mem_singleton.mpr (isGraphic_guardedBy ?_ (isGraphic_create s keyed))
      simpa [Question.yes, Question.no] using ⟨locals, holds, scope⟩
    · exact List.forall_mem_nil _
  · refine List.forall_mem_cons.mpr ⟨isGraphic_guardedBy ?_ (reading .scope s), List.forall_mem_singleton.mpr ?_⟩
    · simpa [Question.yes, Question.no] using ⟨locals, holds⟩
    · exact isGraphic_checkObject (isGraphic_slotName slot)

theorem areLegible_access {container : Code} {selector : Selector} (graphic : container.listing.IsGraphic)
    (keyed : selector.IsLegible) (create : Bool) (slot : Nat) :
    Statement.AreLegible (access container selector create slot) := by
  have member : (Code.member container selector).listing.IsGraphic := keyed _ graphic
  refine Statement.areLegible_append.mpr ⟨?_, ?_⟩
  · split
    · refine List.forall_mem_singleton.mpr (isGraphic_guardedBy ?_ (isGraphic_create graphic keyed))
      exact List.forall_mem_singleton.mpr member
    · exact List.forall_mem_nil _
  · refine List.forall_mem_singleton.mpr (isGraphic_guardedBy ?_ (isGraphic_assign slot ?_))
    · exact List.forall_mem_singleton.mpr graphic
    · exact Code.isGraphic_guarded member

/-! Compilation. -/

structure Fragment.IsLegible (fragment : Fragment) : Prop where
  statements : Statement.AreLegible fragment.statements
  code : fragment.code.IsLegible
  place : ∀ place ∈ fragment.place, place.container.listing.IsGraphic ∧ place.selector.IsLegible

namespace Fragment

variable {fragment : Fragment}

theorem IsLegible.inline {code : Code} (legible : code.IsLegible) (next : Nat) : (inline code next).IsLegible :=
  ⟨List.forall_mem_nil _, legible, nofun⟩

theorem IsLegible.spilled (legible : fragment.IsLegible) : fragment.spilled.IsLegible :=
  ⟨Statement.areLegible_append.mpr ⟨legible.statements,
    List.forall_mem_singleton.mpr (isGraphic_assign fragment.next legible.code.isGraphic)⟩,
    isGraphic_slotName fragment.next, nofun⟩

theorem IsLegible.settled (legible : fragment.IsLegible) : fragment.settled.IsLegible :=
  fragment.settled_of (fun _ => legible.spilled) fun _ => legible

private theorem areLegible_reread (legible : fragment.IsLegible) (slot : Nat) :
    Statement.AreLegible (fragment.reread slot) := by
  unfold Fragment.reread
  split
  · next place named =>
    obtain ⟨container, selector⟩ := legible.place place named
    exact List.forall_mem_cons.mpr ⟨isGraphic_checkObject container,
      List.forall_mem_singleton.mpr (isGraphic_assign slot (selector _ container))⟩
  · exact List.forall_mem_singleton.mpr (isGraphic_assign slot legible.code.isGraphic)

end Fragment

private theorem Code.isGraphic_call {codes : List Code} (callee : Nat)
    (legible : AreLegible codes) :
    (Code.call callee (codes.map .guarded)).listing.IsGraphic := by
  have arguments : AreLegible (codes.map .guarded) := by
    intro code member
    obtain ⟨inner, inside, rfl⟩ := List.mem_map.mp member
    exact isGraphic_guarded (legible inner inside)
  exact .append (.append (.append (.append (.append (isGraphic_slotName callee) rfl) (isGraphic_slotName callee)) rfl)
    (Text.isGraphic_join rfl (isGraphic_listings arguments))) rfl

namespace Node

private theorem isGraphic_propertyKey {h : Heap} {key value : Node} {shown : Value × Text}
    (legible : (Node.property key value).IsLegible) (keyed : propertyKey h key = .ok shown) :
    shown.2.IsGraphic ∧ value.IsLegible := by
  cases key with
  | identifier name =>
    cases keyed
    exact ⟨Text.isGraphic_escaped name, legible⟩
  | literal key =>
    cases keyed
    exact ⟨h.isGraphic_escape legible.1, legible.2⟩
  | _ => cases keyed

private theorem Becomes.isLegible {h : Heap} {node : Node} {create : Bool} {free : Nat}
    {fragment : Fragment}
    (made : node.Becomes h create free fragment) (legible : node.IsLegible) : fragment.IsLegible := by
  induction made with
  | program _ ih =>
    have inner := ih legible
    exact ⟨Statement.areLegible_append.mpr ⟨inner.statements,
      List.forall_mem_singleton.mpr (.append rfl inner.code.isGraphic)⟩, inner.code, nofun⟩
  | literal value =>
    have shown : (Code.literal value (h.escape value)).IsLegible := h.isGraphic_escape legible
    exact .inline shown _
  | this | locals | parameter => exact ⟨List.forall_mem_nil _, rfl, nofun⟩
  | noItems =>
    have none : (Code.array []).IsLegible := List.forall_mem_nil _
    exact .inline none _
  | noProperties =>
    have none : (Code.object [] []).IsLegible := ⟨List.forall_mem_nil _, List.forall_mem_nil _⟩
    exact .inline none _
  | item _ _ head tail =>
    have first := head legible.1
    have others := tail legible.2
    exact ⟨Statement.areLegible_append.mpr ⟨first.statements, others.statements⟩,
      List.forall_mem_cons.mpr ⟨first.code.isGraphic, others.code⟩, nofun⟩
  | property keyed _ _ head tail =>
    obtain ⟨graphic, inner⟩ := isGraphic_propertyKey legible.1 keyed
    have first := head inner
    have others := tail legible.2
    obtain ⟨keys, values⟩ := others.code
    exact ⟨Statement.areLegible_append.mpr ⟨first.statements, others.statements⟩,
      ⟨List.forall_mem_cons.mpr ⟨graphic, keys⟩, List.forall_mem_cons.mpr ⟨first.code.isGraphic, values⟩⟩, nofun⟩
  | @identifier name _ create free =>
    refine ⟨areLegible_resolution legible create free, isGraphic_slotName free, ?_⟩
    have l : Code.locals.listing.IsGraphic := rfl
    have owner : (Code.owner name).listing.IsGraphic := .append (.append rfl (isGraphic_hasListing l name)) rfl
    rintro place ⟨⟩
    exact ⟨owner, Selector.isLegible_name legible⟩
  | @computed _ _ create free _ index _ _ left right =>
    have subject := (left legible.1).settled
    have key := (right legible.2).spilled
    have slot := Selector.isLegible_slot index.next
    have check : (Statement.checkName index.next).listing.IsGraphic := .append (.append rfl (isGraphic_slotName _)) rfl
    refine ⟨?_, isGraphic_slotName free, ?_⟩
    · simp only [Statement.areLegible_append]
      exact ⟨⟨⟨subject.statements, key.statements⟩, List.forall_mem_singleton.mpr check⟩,
        areLegible_access subject.code.isGraphic slot create free⟩
    · rintro place ⟨⟩
      exact ⟨subject.code.isGraphic, slot⟩
  | @named _ _ create free _ _ _ left =>
    have subject := (left legible.1).settled
    have keyed := Selector.isLegible_name legible.2
    refine ⟨Statement.areLegible_append.mpr ⟨subject.statements,
      areLegible_access subject.code.isGraphic keyed create free⟩, isGraphic_slotName free, ?_⟩
    rintro place ⟨⟩
    exact ⟨subject.code.isGraphic, keyed⟩
  | @call _ _ _ _ next _ _ _ _ _ called handed =>
    have target := called legible.1
    have arguments := handed legible.2
    have check : (Statement.checkFunction next).listing.IsGraphic := .append (.append rfl (isGraphic_slotName _)) rfl
    refine ⟨?_, Code.isGraphic_call next arguments.code, nofun⟩
    simp only [Statement.areLegible_append]
    exact ⟨⟨⟨target.statements, arguments.statements⟩, Fragment.areLegible_reread target next⟩,
      List.forall_mem_singleton.mpr check⟩
  | assignment _ placed _ assigned given =>
    have target := assigned legible.1
    have value := given legible.2
    obtain ⟨container, selector⟩ := target.place _ placed
    exact ⟨Statement.areLegible_append.mpr ⟨target.statements, value.statements⟩,
      .append (.append (selector _ container) rfl) (Code.isGraphic_guarded value.code.isGraphic), nofun⟩

theorem areLegible_routine {h : Heap} {body : Node} {routine : Routine} (legible : body.IsLegible)
    (made : (Node.program body).routine h = .ok routine) : Statement.AreLegible routine.statements := by
  obtain ⟨inner, bodyCompiled, rfl⟩ := parts_routine made
  have compiled := (becomes_of_compile body bodyCompiled).isLegible legible
  exact Statement.areLegible_append.mpr
    ⟨compiled.statements, List.forall_mem_singleton.mpr (.append rfl compiled.code.isGraphic)⟩

end Node

/-! Lines of listings. -/

private theorem isGraphic_of_mem_declaration {slots : Nat} :
    ∀ line ∈ declaration slots, line.IsGraphic := by
  cases slots with
  | zero => exact List.forall_mem_nil _
  | succ slots =>
    have names : ∀ name ∈ (List.range (slots + 1)).map slotName, name.IsGraphic := by
      intro name member
      obtain ⟨index, _, rfl⟩ := List.mem_map.mp member
      exact isGraphic_slotName index
    exact List.forall_mem_singleton.mpr (.append (.append rfl (Text.isGraphic_join rfl names)) rfl)

theorem length_declaration (slots : Nat) : (declaration slots).length = if slots = 0 then 0 else 1 := by
  cases slots <;> rfl

private theorem Routine.isGraphic_of_mem_lines {routine : Routine} {parameters : String}
    (named : (Text.of parameters).IsGraphic) (legible : Statement.AreLegible routine.statements) :
    ∀ line ∈ routine.lines parameters, line.IsGraphic := by
  refine List.forall_mem_append.mpr ⟨List.forall_mem_cons.mpr ⟨?_, isGraphic_of_mem_declaration⟩, ?_⟩
  · exact .append (.append rfl named) rfl
  · intro line member
    obtain ⟨statement, inside, rfl⟩ := List.mem_map.mp member
    exact .append rfl (legible statement inside)

/-- The listing of a legible routine has the lines that it was made of, and no other. -/
theorem Routine.lines_listing {routine : Routine} (parameters : String) (named : (Text.of parameters).IsGraphic)
    (legible : Statement.AreLegible routine.statements) :
    Text.lines (routine.listing parameters) = routine.lines parameters ∧
      ∀ c ∈ routine.listing parameters, c = '\n' ∨ c.isGraphic := by
  have graphic := isGraphic_of_mem_lines named legible
  constructor
  · exact Text.lines_join (List.cons_ne_nil _ _) fun line member => (graphic line member).noFeed
  · intro c member
    rcases Text.mem_join member with feed | ⟨line, inside, found⟩
    · exact .inl (List.mem_singleton.mp feed)
    · exact .inr (Text.isGraphic_iff.mp (graphic line inside) c found)

private theorem Evaluator.areLegible_of_ofSource {h : Heap} {strict : Bool} {marks : Nat}
    {source : Text}
    {evaluator : Evaluator} (compiled : (ofSource h strict marks source).2 = .ok evaluator) :
    Statement.AreLegible evaluator.routine.statements ∧
      ∀ routine ∈ evaluator.assigner, Statement.AreLegible routine.statements := by
  unfold ofSource at compiled
  split at compiled
  · cases compiled
  · next tree leftover read =>
    dsimp only at compiled
    split at compiled
    · cases compiled
    · next made =>
      cases compiled
      obtain ⟨body, rfl, legible⟩ := isLegible_of_parse read
      obtain ⟨routine, assigner, routineMade, assignerMade, _, rfl⟩ := parts_ofTree made
      refine ⟨Node.areLegible_routine legible routineMade, fun assigning same => ?_⟩
      have assignment : (Node.assignment body .parameter).IsLegible := ⟨legible, trivial⟩
      exact Node.areLegible_routine assignment (assignerMade assigning same)

/-- Text is escaped without harm and without loss. Between its quotes an escaped text has letters, digits, spaces and
numbers behind backslashes only, so no quote and no line feed; different texts are escaped differently; and a text of
which four digits suffice for each character is read from its escaped text as one string. So whatever stands in its
strings and keys, the listing of an evaluator has a line for its header, one for its slots if there are any, and one
for each statement. -/
theorem escaped_text_is_harmless :
    (∀ t : Text, ∃ inside, t.escaped = Text.of "'" ++ inside ++ Text.of "'" ∧ IsHarmless inside ∧
      ∀ c ∈ inside, (c = '\\' ∨ c = ' ' ∨ c.isLetter ∨ c.isDigit) ∧ c ≠ '\x27' ∧ c ≠ '\n') ∧
    Function.Injective Text.escaped ∧
    (∀ t : Text, (∀ c ∈ t, c.val ≤ 0xFFFF) → tokenize t.escaped = .ok [⟨.string, t.escaped, .text t, ⟨1, 1⟩⟩,
      ⟨.endOfInput, [], .null, .behind t.escaped⟩]) ∧
    ∀ h strict marks source evaluator, (Evaluator.ofSource h strict marks source).2 = .ok evaluator →
      let slots := evaluator.routine.slots
      let statements := evaluator.routine.statements
      Text.lines evaluator.source = Text.of "def fn(l, s):" :: declaration slots ++
        statements.map (fun statement => Text.of "    " ++ statement.listing) ∧
      (declaration slots).length = (if slots = 0 then 0 else 1) ∧
      (Text.lines evaluator.source).length = 1 + (if slots = 0 then 0 else 1) + statements.length ∧
      (∀ c ∈ evaluator.source, c = '\n' ∨ c.isGraphic) ∧
      ∀ routine ∈ evaluator.assigner,
        Text.lines (routine.listing "l, s, v") = routine.lines "l, s, v" := by
  refine ⟨fun t => ?_, Text.escaped_injective, fun t => Text.tokenize_escaped, ?_⟩
  · obtain ⟨inside, same, harmless⟩ := t.exists_inside_escaped
    refine ⟨inside, same, harmless, fun c member => ?_⟩
    rcases harmless.mem c member with rfl | shown
    · exact ⟨.inl rfl, by decide, by decide⟩
    · refine ⟨.inr ?_, ?_, ?_⟩
      · simpa [CodePoint.isPlain, or_assoc] using shown
      · rintro rfl
        cases shown
      · rintro rfl
        cases shown
  · intro h strict marks source evaluator compiled slots statements
    obtain ⟨legible, assigning⟩ := Evaluator.areLegible_of_ofSource compiled
    obtain ⟨lines, graphic⟩ := Routine.lines_listing "l, s" rfl legible
    refine ⟨lines, length_declaration slots, ?_, graphic, fun routine same => ?_⟩
    · rw [Evaluator.source, lines, Routine.lines, List.length_append, List.length_cons, List.length_map,
        length_declaration, Nat.add_comm 1]
    · exact (Routine.lines_listing "l, s, v" rfl (assigning routine same)).1

/-- A quote and a line feed. -/
theorem escaped_quote_and_feed :
    let t := Text.of "it's\n"
    t.escaped = Text.of "'it\\u0027s\\u000a'" ∧ tokenize t.escaped = .ok [⟨.string, t.escaped, .text t, ⟨1, 1⟩⟩,
      ⟨.endOfInput, [], .null, ⟨1, 18⟩⟩] := by
  intro t
  have short : t.all fun c => c.val ≤ 0xFFFF := rfl
  have small : ∀ c ∈ t, c.val ≤ 0xFFFF := by simpa only [List.all_eq_true, decide_eq_true_eq] using short
  have shown : t.escaped = Text.of "'it\\u0027s\\u000a'" := by decide +kernel
  have place : Position.behind t.escaped = ⟨1, 18⟩ := by rw [shown]; decide +kernel
  refine ⟨shown, ?_⟩
  rw [← place]
  exact escaped_text_is_harmless.2.2.1 t small

end GuardedExpr

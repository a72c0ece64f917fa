import GuardedExpr.Proofs.Token.SourceDivision

/-!
The grammar, said about kinds of tokens and without a reader: which runs of tokens spell which trees. The reader
looks at the texts of tokens instead; for tokens as the scanner makes them this comes to the same.
-/

namespace GuardedExpr

/-- What a run of tokens can be read as: an expression, an expression without an assignment at its top, one or more
expressions with commas between them, or one or more properties with commas between them. -/
inductive Phrase where
  | expression (node : Node)
  | primary (node : Node)
  | items (nodes : List Node)
  | properties (nodes : List Node)

def Token.IsLiteral (token : Token) : Prop :=
  token.kind = .number ∨ token.kind = .string

inductive Token.IsKey : Token → Node → Prop where
  | name {word : Token} (is : word.kind = .identifier) : IsKey word (.identifier word.text)
  | literal {token : Token} (is : token.IsLiteral) : IsKey token (.literal token.value)

/-- The spellings of a phrase. -/
inductive Spells : List Token → Phrase → Prop where
  | expression {ts : List Token} {a : Node} (alone : Spells ts (.primary a)) : Spells ts (.expression a)
  | assignment {ts us : List Token} {a b : Node} {equals : Token} (mark : equals.kind = .assign)
      (left : Spells ts (.primary a)) (right : Spells us (.primary b)) :
      Spells (ts ++ equals :: us) (.expression (.assignment a b))
  | reserved {word : Token} {a : Node} (is : word.kind = .identifier) (reserved : Node.ofReserved? word.text = some a) :
      Spells [word] (.primary a)
  | name {word : Token} (is : word.kind = .identifier) (free : Node.ofReserved? word.text = none) :
      Spells [word] (.primary (.identifier word.text))
  | literal {token : Token} (is : token.IsLiteral) : Spells [token] (.primary (.literal token.value))
  | emptyArray {l r : Token} (opens : l.kind = .leftBracket) (closes : r.kind = .rightBracket) :
      Spells [l, r] (.primary (.array []))
  | array {ts : List Token} {as : List Node} {l r : Token} (opens : l.kind = .leftBracket)
      (closes : r.kind = .rightBracket) (elements : Spells ts (.items as)) :
      Spells (l :: (ts ++ [r])) (.primary (.array as))
  | arrayWithComma {ts : List Token} {as : List Node} {l m r : Token} (opens : l.kind = .leftBracket)
      (closes : r.kind = .rightBracket) (mark : m.kind = .comma) (elements : Spells ts (.items as)) :
      Spells (l :: (ts ++ [m, r])) (.primary (.array as))
  | emptyObject {l r : Token} (opens : l.kind = .leftBrace) (closes : r.kind = .rightBrace) :
      Spells [l, r] (.primary (.object []))
  | object {ts : List Token} {ps : List Node} {l r : Token} (opens : l.kind = .leftBrace)
      (closes : r.kind = .rightBrace) (properties : Spells ts (.properties ps)) :
      Spells (l :: (ts ++ [r])) (.primary (.object ps))
  | field {ts : List Token} {a : Node} {point word : Token} (mark : point.kind = .dot)
      (is : word.kind = .identifier) (subject : Spells ts (.primary a)) :
      Spells (ts ++ [point, word]) (.primary (.member a (.identifier word.text) false))
  | index {ts us : List Token} {a b : Node} {l r : Token} (opens : l.kind = .leftBracket)
      (closes : r.kind = .rightBracket) (subject : Spells ts (.primary a)) (key : Spells us (.expression b)) :
      Spells (ts ++ l :: (us ++ [r])) (.primary (.member a b true))
  | emptyCall {ts : List Token} {a : Node} {l r : Token} (opens : l.kind = .leftParen)
      (closes : r.kind = .rightParen) (callee : Spells ts (.primary a)) :
      Spells (ts ++ [l, r]) (.primary (.call a []))
  | call {ts us : List Token} {a : Node} {as : List Node} {l r : Token} (opens : l.kind = .leftParen)
      (closes : r.kind = .rightParen) (callee : Spells ts (.primary a)) (arguments : Spells us (.items as)) :
      Spells (ts ++ l :: (us ++ [r])) (.primary (.call a as))
  | item {ts : List Token} {a : Node} (alone : Spells ts (.expression a)) : Spells ts (.items [a])
  | items {ts us : List Token} {a : Node} {as : List Node} {m : Token} (mark : m.kind = .comma)
      (first : Spells ts (.expression a)) (others : Spells us (.items as)) :
      Spells (ts ++ m :: us) (.items (a :: as))
  | property {ts : List Token} {key a : Node} {k m : Token} (is : k.IsKey key) (mark : m.kind = .colon)
      (value : Spells ts (.expression a)) : Spells (k :: m :: ts) (.properties [.property key a])
  | properties {ts us : List Token} {key a : Node} {ps : List Node} {k m n : Token} (is : k.IsKey key)
      (mark : m.kind = .colon) (value : Spells ts (.expression a)) (next : n.kind = .comma)
      (others : Spells us (.properties ps)) :
      Spells (k :: m :: (ts ++ n :: us)) (.properties (.property key a :: ps))

def Token.AreLexical (tokens : List Token) : Prop :=
  ∀ token ∈ tokens, token.kind.IsShape token.text

private theorem TokenKind.eq_of_isShape {kind other : TokenKind} {c : CodePoint}
    (mark : kind.mark? = some c)
    (shape : other.IsShape [c]) : other = kind := by
  have read := ofMark?_eq_some_iff.mpr mark
  have noDigit : c.isDigit = false := by cases kind <;> cases mark <;> rfl
  have noName : c.startsName = false := by cases kind <;> cases mark <;> rfl
  have ofOther (written : [c] = other.mark?.toList) : other = kind := by
    have same : other.mark? = some c := Option.toList_eq_singleton_iff.mp written.symm
    rw [ofMark?_eq_some_iff.mpr same] at read
    exact Option.some.inj read
  cases other with
  | number =>
    obtain ⟨body, tail, whole, starts, _⟩ := shape
    match body with
    | [] => cases starts
    | [d] =>
      cases (List.cons.inj whole).1
      simp [Scanner.startsNumber, noDigit] at starts
    | _ :: _ :: _ => cases (List.cons.inj whole).2
  | string =>
    obtain ⟨_, inside, _, whole, _⟩ := shape
    have none_ := (List.cons.inj whole).2
    cases List.append_eq_nil_iff.mp none_.symm |>.2
  | identifier =>
    obtain ⟨_, _, whole, starts, _⟩ := shape
    cases (List.cons.inj whole).1
    rw [noName] at starts
    cases starts
  | _ => exact ofOther shape

def TokenKind.IsWrittenAs (kind : TokenKind) (mark : String) : Prop :=
  ∃ c, kind.mark? = some c ∧ Text.of mark = [c]

namespace Reader

variable {α β : Type} {token : Token} {tokens rest : List Token} {kind : TokenKind} {mark : String}

def front : List Token → Token
  | token :: _ => token
  | [] => ⟨.endOfInput, [], .null, ⟨0, 0⟩⟩

theorem text_eq_iff (shape : token.kind.IsShape token.text) (written : kind.IsWrittenAs mark) :
    token.text = Text.of mark ↔ token.kind = kind := by
  obtain ⟨c, isMark, spelled⟩ := written
  rw [spelled]
  constructor
  · intro same
    rw [same] at shape
    exact TokenKind.eq_of_isShape isMark shape
  · intro same
    rw [same] at shape
    exact (TokenKind.isShape_of_mark isMark).mp shape

theorem run_bind_ok {reader : Reader β} {next : β → Reader α} {value : β}
    (first : reader.run.run tokens = (.ok value, rest)) :
    (reader >>= next).run.run tokens = (next value).run.run rest := by
  rw [ExceptT.run_bind, StateT.run_bind]
  change (match reader.run.run tokens with | (outcome, left) => _) = _
  rw [first]
  rfl

theorem run_bind_error {reader : Reader β} {next : β → Reader α} {failure : Error}
    (first : reader.run.run tokens = (.error failure, rest)) :
    (reader >>= next).run.run tokens = (.error failure, rest) := by
  rw [ExceptT.run_bind, StateT.run_bind]
  change (match reader.run.run tokens with | (outcome, left) => _) = _
  rw [first]
  rfl

theorem peek_hit (lexical : Token.AreLexical (token :: rest)) (is : token.kind = kind)
    (written : kind.IsWrittenAs mark) :
    (peek [Text.of mark]).run.run (token :: rest) = (.ok (some token), token :: rest) := by
  have same : token.text = Text.of mark := (text_eq_iff (lexical token List.mem_cons_self) written).mpr is
  have some_ : token.kind ≠ .endOfInput := by
    rintro end_
    obtain ⟨_, isMark, _⟩ := written
    rw [← is, end_] at isMark
    cases isMark
  change ((if token.kind = .endOfInput then pure none
    else if [Text.of mark].isEmpty || [Text.of mark].contains token.text then pure (some token)
    else pure none : Reader (Option Token)).run.run (token :: rest)) = _
  rw [if_neg some_, if_pos (by simp [same])]
  rfl

theorem peek_miss (lexical : Token.AreLexical tokens) (isnt : ∀ token ∈ tokens.head?, token.kind ≠ kind)
    (written : kind.IsWrittenAs mark) :
    (peek [Text.of mark]).run.run tokens = (.ok none, tokens) := by
  cases tokens with
  | nil => rfl
  | cons token rest =>
    have other : token.text ≠ Text.of mark := fun same =>
      isnt token rfl ((text_eq_iff (lexical token List.mem_cons_self) written).mp same)
    change ((if token.kind = .endOfInput then pure none
      else if [Text.of mark].isEmpty || [Text.of mark].contains token.text then pure (some token)
      else pure none : Reader (Option Token)).run.run (token :: rest)) = _
    split
    · rfl
    · rw [if_neg (by simp [other])]
      rfl

theorem peek_looks (expected : List Text) (tokens : List Token) :
    ∃ found, (peek expected).run.run tokens = (.ok found, tokens) := by
  cases tokens with
  | nil => exact ⟨none, rfl⟩
  | cons token rest =>
    change ∃ _, ((if token.kind = .endOfInput then pure none
      else if expected.isEmpty || expected.contains token.text then pure (some token)
      else pure none : Reader (Option Token)).run.run (token :: rest)) = _
    split
    · exact ⟨none, rfl⟩
    · split
      · exact ⟨some token, rfl⟩
      · exact ⟨none, rfl⟩

section Hit

variable (lexical : Token.AreLexical (token :: rest)) (is : token.kind = kind) (written : kind.IsWrittenAs mark)
include lexical is written

theorem expect_hit : (expect [Text.of mark]).run.run (token :: rest) = (.ok (some token), rest) := by
  rw [expect, run_bind_ok (peek_hit lexical is written)]
  rfl

theorem accept_hit : (accept mark).run.run (token :: rest) = (.ok true, rest) := by
  rw [accept, run_bind_ok (expect_hit lexical is written)]
  rfl

theorem consume_hit : (consume (Text.of mark)).run.run (token :: rest) = (.ok token, rest) := by
  rw [consume, run_bind_ok (expect_hit lexical is written)]
  rfl

theorem sees_hit : (sees mark).run.run (token :: rest) = (.ok true, token :: rest) := by
  rw [sees, run_bind_ok (peek_hit lexical is written)]
  rfl

end Hit

section Miss

variable (lexical : Token.AreLexical tokens) (isnt : ∀ token ∈ tokens.head?, token.kind ≠ kind)
  (written : kind.IsWrittenAs mark)
include lexical isnt written

theorem expect_miss : (expect [Text.of mark]).run.run tokens = (.ok none, tokens) := by
  rw [expect, run_bind_ok (peek_miss lexical isnt written)]
  rfl

theorem accept_miss : (accept mark).run.run tokens = (.ok false, tokens) := by
  rw [accept, run_bind_ok (expect_miss lexical isnt written)]
  rfl

theorem sees_miss : (sees mark).run.run tokens = (.ok false, tokens) := by
  rw [sees, run_bind_ok (peek_miss lexical isnt written)]
  rfl

theorem consume_miss : (consume (Text.of mark)).run.run tokens =
    (.error (.unexpectedToken (Text.of mark) (front tokens).position), tokens) := by
  rw [consume, run_bind_ok (expect_miss lexical isnt written)]
  cases tokens <;> rfl

end Miss

/-! Single tokens. -/

theorem isIdentifier_iff : token.isIdentifier ↔ token.kind = .identifier :=
  decide_eq_true_iff

theorem isLiteral_iff : (token.kind = .number || token.kind = .string) = true ↔ token.IsLiteral := by
  simp [Token.IsLiteral]

theorem identifier_cons (token : Token) (rest : List Token) : identifier.run.run (token :: rest) =
    (if token.isIdentifier then do skip; return .identifier token.text
      else failAt token (Text.of "identifier") : Reader Node).run.run (token :: rest) :=
  rfl

theorem literal_cons (token : Token) (rest : List Token) : literal.run.run (token :: rest) =
    (if token.kind = .number || token.kind = .string then do skip; return .literal token.value
      else failAt token (Text.of "primary expression") : Reader Node).run.run (token :: rest) :=
  rfl

theorem key_cons (token : Token) (rest : List Token) : key.run.run (token :: rest) =
    (if token.isIdentifier then identifier else literal : Reader Node).run.run (token :: rest) :=
  rfl

theorem atom_cons (token : Token) (rest : List Token) : atom.run.run (token :: rest) =
    (if token.isIdentifier then
        match Node.ofReserved? token.text with
        | some node => do skip; return node
        | none => identifier
      else literal : Reader Node).run.run (token :: rest) :=
  rfl

theorem identifier_hit (is : token.kind = .identifier) :
    identifier.run.run (token :: rest) = (.ok (.identifier token.text), rest) := by
  rw [identifier_cons, if_pos (isIdentifier_iff.mpr is)]
  rfl

theorem identifier_miss (isnt : ∀ token ∈ tokens.head?, token.kind ≠ .identifier) : identifier.run.run tokens =
    (.error (.unexpectedToken (Text.of "identifier") (front tokens).position), tokens) := by
  cases tokens with
  | nil => rfl
  | cons token rest =>
    rw [identifier_cons, if_neg (mt isIdentifier_iff.mp (isnt token rfl))]
    rfl

theorem literal_hit (is : token.IsLiteral) :
    literal.run.run (token :: rest) = (.ok (.literal token.value), rest) := by
  rw [literal_cons, if_pos (isLiteral_iff.mpr is)]
  rfl

private theorem literal_miss (isnt : ∀ token ∈ tokens.head?, ¬ token.IsLiteral) :
    literal.run.run tokens =
    (.error (.unexpectedToken (Text.of "primary expression") (front tokens).position), tokens) := by
  cases tokens with
  | nil => rfl
  | cons token rest =>
    rw [literal_cons, if_neg (mt isLiteral_iff.mp (isnt token rfl))]
    rfl

theorem not_isIdentifier_of_isLiteral (is : token.IsLiteral) : ¬ token.isIdentifier := by
  intro name
  rcases is with is | is <;> cases is.symm.trans (isIdentifier_iff.mp name)

theorem key_hit {node : Node} (is : token.IsKey node) : key.run.run (token :: rest) = (.ok node, rest) := by
  cases is with
  | name is => rw [key_cons, if_pos (isIdentifier_iff.mpr is), identifier_hit is]
  | literal is => rw [key_cons, if_neg (not_isIdentifier_of_isLiteral is), literal_hit is]

theorem atom_of_reserved {node : Node} (is : token.kind = .identifier)
    (reserved : Node.ofReserved? token.text = some node) : atom.run.run (token :: rest) = (.ok node, rest) := by
  rw [atom_cons, if_pos (isIdentifier_iff.mpr is), reserved]
  rfl

theorem atom_of_name (is : token.kind = .identifier) (free : Node.ofReserved? token.text = none) :
    atom.run.run (token :: rest) = (.ok (.identifier token.text), rest) := by
  rw [atom_cons, if_pos (isIdentifier_iff.mpr is), free]
  exact identifier_hit is

theorem atom_of_literal (is : token.IsLiteral) : atom.run.run (token :: rest) = (.ok (.literal token.value), rest) := by
  rw [atom_cons, if_neg (not_isIdentifier_of_isLiteral is), literal_hit is]

theorem atom_miss (noName : ∀ token ∈ tokens.head?, token.kind ≠ .identifier)
    (noLiteral : ∀ token ∈ tokens.head?, ¬ token.IsLiteral) :
    let missed := (.error (.unexpectedToken (Text.of "primary expression") (front tokens).position), tokens)
    atom.run.run tokens = missed ∧ key.run.run tokens = missed := by
  rw [← literal_miss noLiteral]
  cases tokens with
  | nil => exact ⟨rfl, rfl⟩
  | cons token rest =>
    have isnt := mt isIdentifier_iff.mp (noName token rfl)
    rw [atom_cons, key_cons, if_neg isnt, if_neg isnt]
    exact ⟨rfl, rfl⟩

end Reader

end GuardedExpr

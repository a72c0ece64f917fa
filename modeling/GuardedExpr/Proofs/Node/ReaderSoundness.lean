import GuardedExpr.Proofs.Node.TokenGrammar

/-!
What the reader takes is a spelling of what it makes of it. It fails in one way only, at a token that it did not
expect, since it has always fuel enough for the tokens that are left: each token is passed by four productions at
most. And where it fails, other tokens would have gone on with those that it has taken.
-/

namespace GuardedExpr

namespace Reader

open Token (AreLexical)

variable {α β : Type} {limit fuel : Nat} {kind : TokenKind} {mark : String}

def GoesOn (good : List Token → α → Prop) (taken : List Token) : Prop :=
  ∃ more value, AreLexical more ∧ good (taken ++ more) value

theorem GoesOn.now {good : List Token → α → Prop} {taken : List Token} {value : α} (holds : good taken value) :
    GoesOn good taken :=
  ⟨[], value, List.forall_mem_nil _, by rwa [List.append_nil]⟩

theorem GoesOn.before {good : List Token → α → Prop} {taken more : List Token} (lexical : AreLexical more)
    (goesOn : GoesOn good (taken ++ more)) : GoesOn good taken := by
  obtain ⟨others, value, also, holds⟩ := goesOn
  exact ⟨more ++ others, value, List.forall_mem_append.mpr ⟨lexical, also⟩, by rwa [← List.append_assoc]⟩

theorem GoesOn.behind {good : List Token → α → Prop} {taken more : List Token}
    (goesOn : GoesOn good (taken ++ more)) : GoesOn (fun more => good (taken ++ more)) more := by
  obtain ⟨others, value, also, holds⟩ := goesOn
  rw [List.append_assoc] at holds
  exact ⟨others, value, also, holds⟩

theorem GoesOn.before_mark {good : List Token → α → Prop} {taken : List Token} (written : kind.IsWrittenAs mark)
    (behind : ∀ token : Token, token.kind = kind → GoesOn good (taken ++ [token])) : GoesOn good taken := by
  obtain ⟨c, isMark, _⟩ := written
  refine .before ?_ (behind ⟨kind, [c], .null, ⟨0, 0⟩⟩ rfl)
  exact List.forall_mem_singleton.mpr ((TokenKind.isShape_of_mark isMark).mpr rfl)

theorem GoesOn.before_word {good : List Token → α → Prop} {taken : List Token}
    (behind : ∀ word : Token, word.kind = .identifier → Node.ofReserved? word.text = none →
      GoesOn good (taken ++ [word])) : GoesOn good taken := by
  refine .before ?_ (behind ⟨.identifier, [CodePoint.ofChar 'a'], .null, ⟨0, 0⟩⟩ rfl rfl)
  exact List.forall_mem_singleton.mpr ⟨_, [], rfl, rfl, List.forall_mem_nil _⟩

/-- On a limited number of tokens, a reader takes a run of them that goes with what it makes, or it fails at the
token behind those that it has taken, where others would have gone on. -/
def Takes (limit : Nat) (reader : Reader α) (good : List Token → α → Prop) : Prop :=
  ∀ tokens : List Token, AreLexical tokens → tokens.length ≤ limit →
    match reader.run.run tokens with
    | (.ok value, rest) => ∃ taken, tokens = taken ++ rest ∧ good taken value
    | (.error failure, rest) => ∃ taken expected, tokens = taken ++ rest ∧
        failure = .unexpectedToken expected (front rest).position ∧ GoesOn good taken

theorem takes_pure {good : List Token → α → Prop} {value : α} (holds : good [] value) :
    Takes limit (pure value) good :=
  fun _ _ _ => ⟨[], rfl, holds⟩

theorem takes_bind {reader : Reader β} {next : β → Reader α} {good : List Token → β → Prop}
    {better : List Token → α → Prop} (first : reader.Takes limit good)
    (goesOn : ∀ taken value, good taken value → GoesOn better taken)
    (second : ∀ taken value, good taken value → taken.length ≤ limit →
      (next value).Takes (limit - taken.length) fun more => better (taken ++ more)) :
    (reader >>= next).Takes limit better := by
  intro tokens lexical few
  have result := first tokens lexical few
  rw [ExceptT.run_bind, StateT.run_bind]
  revert result
  rcases reader.run.run tokens with ⟨_ | value, rest⟩
  · rintro ⟨taken, expected, split, failed, more, value, also, holds⟩
    exact ⟨taken, expected, split, failed, .before also (goesOn _ value holds)⟩
  · rintro ⟨taken, rfl, holds⟩
    rw [List.length_append] at few
    have behind := second taken value holds (by omega) rest
      (fun token member => lexical token (List.mem_append_right taken member)) (by omega)
    change match (next value).run.run rest with | (.ok value, rest) => _ | (.error failure, rest) => _
    revert behind
    rcases (next value).run.run rest with ⟨_ | result, left⟩
    · rintro ⟨more, expected, rfl, failed, others, result, also, whole⟩
      refine ⟨taken ++ more, expected, (List.append_assoc _ _ _).symm, failed, others, result, also, ?_⟩
      rwa [List.append_assoc]
    · rintro ⟨more, rfl, whole⟩
      exact ⟨taken ++ more, (List.append_assoc _ _ _).symm, whole⟩

theorem Takes.weaken {reader : Reader α} {good better : List Token → α → Prop} (takes : reader.Takes limit good)
    (implies : ∀ taken value, good taken value → better taken value) : reader.Takes limit better := by
  intro tokens lexical few
  have result := takes tokens lexical few
  revert result
  rcases reader.run.run tokens with ⟨_ | value, rest⟩
  · rintro ⟨taken, expected, split, failed, more, value, also, holds⟩
    exact ⟨taken, expected, split, failed, more, value, also, implies _ _ holds⟩
  · rintro ⟨taken, rfl, holds⟩
    exact ⟨taken, rfl, implies taken value holds⟩

theorem takes_map {reader : Reader β} {make : β → α} {good : List Token → β → Prop} {better : List Token → α → Prop}
    (takes : reader.Takes limit good) (implies : ∀ taken value, good taken value → better taken (make value)) :
    Takes limit (do return make (← reader)) better := by
  refine takes_bind takes (fun taken value holds => .now (implies taken value holds)) fun taken value holds _ => ?_
  refine takes_pure ?_
  rw [List.append_nil]
  exact implies taken value holds

theorem takes_look {reader : Reader β} {next : β → Reader α} {good : List Token → α → Prop}
    (looks : ∀ tokens, ∃ value, reader.run.run tokens = (.ok value, tokens))
    (second : ∀ value, (next value).Takes limit good) : (reader >>= next).Takes limit good := by
  intro tokens lexical few
  obtain ⟨value, looked⟩ := looks tokens
  rw [run_bind_ok looked]
  exact second value tokens lexical few

theorem front_cases (kind : TokenKind) (tokens : List Token) :
    (∃ token rest, tokens = token :: rest ∧ token.kind = kind) ∨ ∀ token ∈ tokens.head?, token.kind ≠ kind := by
  cases tokens with
  | nil => exact .inr (by simp)
  | cons token rest =>
    by_cases is : token.kind = kind
    · exact .inl ⟨token, rest, rfl, is⟩
    · exact .inr fun _ first => Option.some.inj first ▸ is

theorem Takes.behind {reader : Reader α} {good : List Token → α → Prop} {token : Token} {rest : List Token}
    (takes : reader.Takes (limit - 1) fun more => good (token :: more)) (lexical : AreLexical (token :: rest))
    (few : (token :: rest).length ≤ limit) :
    match reader.run.run rest with
    | (.ok value, left) => ∃ taken, token :: rest = taken ++ left ∧ good taken value
    | (.error failure, left) => ∃ taken expected, token :: rest = taken ++ left ∧
        failure = .unexpectedToken expected (front left).position ∧ GoesOn good taken := by
  rw [List.length_cons] at few
  have result := takes rest (List.forall_mem_cons.mp lexical).2 (by omega)
  revert result
  rcases reader.run.run rest with ⟨_ | value, left⟩
  · rintro ⟨taken, expected, rfl, failed, goesOn⟩
    exact ⟨token :: taken, expected, rfl, failed, goesOn⟩
  · rintro ⟨taken, rfl, holds⟩
    exact ⟨token :: taken, rfl, holds⟩

/-- What is read behind a mark that may be there, and what is read where it is not. -/
theorem takes_accept_ite {good : List Token → α → Prop} {yes no : Reader α} (kind : TokenKind)
    (written : kind.IsWrittenAs mark)
    (there : ∀ token : Token, token.kind = kind → 1 ≤ limit → yes.Takes (limit - 1) fun more => good (token :: more))
    (absent : no.Takes limit good) : Takes limit (do if ← accept mark then yes else no) good := by
  intro tokens lexical few
  rcases front_cases kind tokens with ⟨token, rest, rfl, is⟩ | isnt
  · rw [run_bind_ok (accept_hit lexical is written), if_pos rfl]
    exact (there token is (Nat.le_trans (Nat.succ_le_succ (Nat.zero_le _)) few)).behind lexical few
  · rw [run_bind_ok (accept_miss lexical isnt written), if_neg Bool.false_ne_true]
    exact absent tokens lexical few

private theorem takes_consume {good : List Token → α → Prop} {next : Reader α} (kind : TokenKind)
    (written : kind.IsWrittenAs mark) (goesOn : ∀ token : Token, token.kind = kind → GoesOn good [token])
    (behind : ∀ token : Token, token.kind = kind → 1 ≤ limit →
      next.Takes (limit - 1) fun more => good (token :: more)) :
    Takes limit (do let _ ← consume (Text.of mark); next) good := by
  intro tokens lexical few
  rcases front_cases kind tokens with ⟨token, rest, rfl, is⟩ | isnt
  · rw [run_bind_ok (consume_hit lexical is written)]
    exact (behind token is (Nat.le_trans (Nat.succ_le_succ (Nat.zero_le _)) few)).behind lexical few
  · rw [run_bind_error (consume_miss lexical isnt written)]
    exact ⟨[], _, rfl, rfl, .before_mark written goesOn⟩

theorem takes_closed {reader : Reader β} {next : β → Reader α} {good : List Token → β → Prop}
    {better : List Token → α → Prop} (kind : TokenKind) (written : kind.IsWrittenAs mark)
    (inside : reader.Takes limit good)
    (goesOn : ∀ taken value closing, good taken value → closing.kind = kind → GoesOn better (taken ++ [closing]))
    (behind : ∀ taken value closing, good taken value → closing.kind = kind → taken.length + 1 ≤ limit →
      (next value).Takes (limit - (taken.length + 1)) fun more => better (taken ++ closing :: more)) :
    Takes limit (do let value ← reader; let _ ← consume (Text.of mark); next value) better := by
  refine takes_bind inside (fun taken value holds => ?_) fun taken value holds few => ?_
  · exact .before_mark written fun closing closes => goesOn taken value closing holds closes
  · refine takes_consume kind written (fun closing closes => ?_) fun closing closes some_ => ?_
    · exact (goesOn taken value closing holds closes).behind
    · rw [Nat.sub_sub]
      exact behind taken value closing holds closes (by omega)

/-- A reader of single tokens takes the next one or fails at it, where a name would have been taken. -/
theorem takes_of_single {reader : Reader Node} {good : Token → Node → Prop}
    (outcome : ∀ tokens, (∃ token rest node, tokens = token :: rest ∧ good token node ∧
      reader.run.run tokens = (.ok node, rest)) ∨
      ∃ expected, reader.run.run tokens = (.error (.unexpectedToken expected (front tokens).position), tokens))
    (word : ∀ word : Token, word.kind = .identifier → Node.ofReserved? word.text = none → ∃ node, good word node) :
    reader.Takes limit fun taken node => ∃ token, taken = [token] ∧ good token node := by
  intro tokens _ _
  rcases outcome tokens with ⟨token, rest, node, rfl, holds, read⟩ | ⟨expected, read⟩
  · rw [read]
    exact ⟨[token], rfl, token, rfl, holds⟩
  · rw [read]
    refine ⟨[], expected, rfl, rfl, .before_word fun token is free => ?_⟩
    obtain ⟨node, holds⟩ := word token is free
    exact .now ⟨token, rfl, holds⟩

private theorem takes_identifier : identifier.Takes limit fun taken node =>
    ∃ word, taken = [word] ∧ word.kind = .identifier ∧ node = .identifier word.text := by
  refine takes_of_single (fun tokens => ?_) fun word is _ => ⟨_, is, rfl⟩
  rcases front_cases .identifier tokens with ⟨word, rest, rfl, is⟩ | isnt
  · exact .inl ⟨word, rest, _, rfl, ⟨is, rfl⟩, identifier_hit is⟩
  · exact .inr ⟨_, identifier_miss isnt⟩

theorem next_cases (tokens : List Token) : (∃ word rest, tokens = word :: rest ∧ word.kind = .identifier) ∨
    (∃ token rest, tokens = token :: rest ∧ token.IsLiteral) ∨
    ((∀ token ∈ tokens.head?, token.kind ≠ .identifier) ∧ ∀ token ∈ tokens.head?, ¬ token.IsLiteral) := by
  cases tokens with
  | nil => exact .inr (.inr ⟨by simp, by simp⟩)
  | cons token rest =>
    by_cases name : token.kind = .identifier
    · exact .inl ⟨token, rest, rfl, name⟩
    by_cases literal : token.IsLiteral
    · exact .inr (.inl ⟨token, rest, rfl, literal⟩)
    · exact .inr (.inr ⟨fun _ first => Option.some.inj first ▸ name, fun _ first => Option.some.inj first ▸ literal⟩)

private theorem takes_key :
    key.Takes limit fun taken node => ∃ token, taken = [token] ∧ token.IsKey node := by
  refine takes_of_single (fun tokens => ?_) fun word is _ => ⟨_, .name is⟩
  rcases next_cases tokens with ⟨word, rest, rfl, is⟩ | ⟨token, rest, rfl, is⟩ | ⟨noName, noLiteral⟩
  · exact .inl ⟨word, rest, _, rfl, .name is, key_hit (.name is)⟩
  · exact .inl ⟨token, rest, _, rfl, .literal is, key_hit (.literal is)⟩
  · exact .inr ⟨_, (atom_miss noName noLiteral).2⟩

private theorem takes_atom : atom.Takes limit fun taken node =>
    ∃ token, taken = [token] ∧ Spells [token] (.primary node) := by
  refine takes_of_single (fun tokens => ?_) fun word is free => ⟨_, .name is free⟩
  rcases next_cases tokens with ⟨word, rest, rfl, is⟩ | ⟨token, rest, rfl, is⟩ | ⟨noName, noLiteral⟩
  · cases reserved : Node.ofReserved? word.text with
    | some node => exact .inl ⟨word, rest, node, rfl, .reserved is reserved, atom_of_reserved is reserved⟩
    | none => exact .inl ⟨word, rest, _, rfl, .name is reserved, atom_of_name is reserved⟩
  · exact .inl ⟨token, rest, _, rfl, .literal is, atom_of_literal is⟩
  · exact .inr ⟨_, (atom_miss noName noLiteral).1⟩

/-- What stands between brackets behind each other: nothing, or some items, and in an array a comma may stand behind
the last one. -/
inductive SpellsElements : List Token → List Node → Prop where
  | none : SpellsElements [] []
  | some {ts : List Token} {as : List Node} (items : Spells ts (.items as)) : SpellsElements ts as
  | comma {ts : List Token} {as : List Node} {m : Token} (mark : m.kind = .comma) (items : Spells ts (.items as)) :
      SpellsElements (ts ++ [m]) as

private theorem spells_array {ts : List Token} {as : List Node} {l r : Token}
    (opens : l.kind = .leftBracket)
    (closes : r.kind = .rightBracket) (elements : SpellsElements ts as) :
    Spells (l :: (ts ++ [r])) (.primary (.array as)) := by
  cases elements with
  | none => exact .emptyArray opens closes
  | some items => exact .array opens closes items
  | comma mark items =>
    rw [List.append_assoc]
    exact .arrayWithComma opens closes mark items

theorem SpellsElements.after {ts us : List Token} {a : Node} {as : List Node} {m : Token} (mark : m.kind = .comma)
    (first : Spells ts (.expression a)) (others : SpellsElements us as) : SpellsElements (ts ++ m :: us) (a :: as) := by
  cases others with
  | none => exact .comma mark (.item first)
  | some items => exact .some (.items mark first items)
  | @comma us _ last also items =>
    have whole : SpellsElements ((ts ++ m :: us) ++ [last]) (a :: as) := .comma also (.items mark first items)
    simpa using whole

inductive SpellsArguments : List Token → List Node → Prop where
  | none : SpellsArguments [] []
  | some {ts : List Token} {as : List Node} (items : Spells ts (.items as)) : SpellsArguments ts as

theorem spells_call {ts us : List Token} {a : Node} {as : List Node} {l r : Token} (opens : l.kind = .leftParen)
    (closes : r.kind = .rightParen) (callee : Spells ts (.primary a)) (arguments : SpellsArguments us as) :
    Spells (ts ++ l :: (us ++ [r])) (.primary (.call a as)) := by
  cases arguments with
  | none => exact .emptyCall opens closes callee
  | some items => exact .call opens closes callee items

theorem takes_ite {good : List Token → α → Prop} {condition : Prop} [Decidable condition] {yes no : Reader α}
    (first : yes.Takes limit good) (second : no.Takes limit good) :
    (if condition then yes else no).Takes limit good := by
  split
  · exact first
  · exact second

theorem sees_looks (mark : String) (tokens : List Token) :
    ∃ found, (sees mark).run.run tokens = (.ok found, tokens) := by
  obtain ⟨found, looked⟩ := peek_looks [Text.of mark] tokens
  exact ⟨found.isSome, by rw [sees, run_bind_ok looked]; rfl⟩

private theorem spells_word {word : Token} (is : word.kind = .identifier)
    (free : Node.ofReserved? word.text = none) :
    Spells [word] (.expression (.identifier word.text)) :=
  .expression (.name is free)

-- The induction is on the fuel. Each token pays for four productions, and the summand of a production ranks it above
-- those that it goes over to without having taken a token.
mutual

theorem takes_assignment : (fuel limit : Nat) → 4 * limit + 2 ≤ fuel →
    (assignment fuel).Takes limit fun taken node => Spells taken (.expression node)
  | 0, _, enough => by omega
  | fuel + 1, limit, enough => by
    unfold assignment
    refine takes_bind (takes_primary fuel _ (by omega)) (fun taken left spelled => .now (.expression spelled))
      fun taken left spelled few => ?_
    refine takes_accept_ite .assign ⟨_, rfl, rfl⟩ (fun equals mark some_ => ?_) ?_
    · refine takes_map (takes_primary fuel _ (by omega)) fun more right also => ?_
      exact .assignment mark spelled also
    · refine takes_pure ?_
      rw [List.append_nil]
      exact .expression spelled

theorem takes_primary : (fuel limit : Nat) → 4 * limit + 1 ≤ fuel →
    (primary fuel).Takes limit fun taken node => Spells taken (.primary node)
  | 0, _, enough => by omega
  | fuel + 1, limit, enough => by
    unfold primary
    refine takes_accept_ite .leftBracket ⟨_, rfl, rfl⟩ (fun opening opens some_ => ?_) ?_
    · refine takes_bind (takes_array fuel _ (by omega)) (fun taken node spelled => .now (spelled opening opens))
        fun taken node spelled few => ?_
      exact takes_suffixes fuel _ node (by omega) (spelled opening opens)
    refine takes_accept_ite .leftBrace ⟨_, rfl, rfl⟩ (fun opening opens some_ => ?_) ?_
    · refine takes_bind (takes_object fuel _ (by omega)) (fun taken node spelled => .now (spelled opening opens))
        fun taken node spelled few => ?_
      exact takes_suffixes fuel _ node (by omega) (spelled opening opens)
    · refine takes_bind takes_atom ?_ fun taken node spelled few => ?_
      · rintro _ _ ⟨token, rfl, spelled⟩
        exact .now spelled
      · obtain ⟨token, rfl, spelled⟩ := spelled
        rw [List.length_singleton] at few ⊢
        exact takes_suffixes fuel _ node (by omega) spelled

theorem takes_suffixes : (fuel limit : Nat) → {ts : List Token} → (subject : Node) → 4 * limit + 1 ≤ fuel →
    Spells ts (.primary subject) →
      (suffixes fuel subject).Takes limit fun taken node => Spells (ts ++ taken) (.primary node)
  | 0, _, _, _, enough, _ => by omega
  | fuel + 1, limit, ts, subject, enough, spelled => by
    unfold suffixes
    refine takes_accept_ite .dot ⟨_, rfl, rfl⟩ (fun point mark some_ => ?_) ?_
    · refine takes_bind takes_identifier ?_ fun taken name is few => ?_
      · rintro _ _ ⟨word, rfl, is, rfl⟩
        exact .now (.field mark is spelled)
      · obtain ⟨word, rfl, is, rfl⟩ := is
        refine (takes_suffixes fuel _ _ (by omega) (.field mark is spelled)).weaken fun more node whole => ?_
        rw [List.append_assoc] at whole
        exact whole
    refine takes_accept_ite .leftBracket ⟨_, rfl, rfl⟩ (fun opening opens some_ => ?_) ?_
    · refine takes_closed .rightBracket ⟨_, rfl, rfl⟩ (takes_assignment fuel _ (by omega))
        (fun us key closing also closes => .now (.index opens closes spelled also))
        fun us key closing also closes few => ?_
      refine (takes_suffixes fuel _ _ (by omega) (.index opens closes spelled also)).weaken fun more node whole => ?_
      simpa using whole
    refine takes_accept_ite .leftParen ⟨_, rfl, rfl⟩ (fun opening opens some_ => ?_) ?_
    · refine takes_closed .rightParen ⟨_, rfl, rfl⟩ (takes_arguments fuel _ (by omega))
        (fun us items closing also closes => .now (spells_call opens closes spelled also))
        fun us items closing also closes few => ?_
      have called := spells_call opens closes spelled also
      refine (takes_suffixes fuel _ _ (by omega) called).weaken fun more node whole => ?_
      simpa using whole
    · refine takes_pure ?_
      rw [List.append_nil]
      exact spelled

private theorem takes_array : (fuel limit : Nat) → 4 * limit + 4 ≤ fuel →
    (array fuel).Takes limit fun taken node =>
    ∀ opening : Token, opening.kind = .leftBracket → Spells (opening :: taken) (.primary node)
  | 0, _, enough => by omega
  | fuel + 1, limit, enough => by
    unfold array
    have whole (taken : List Token) (items : List Node) (closing : Token) (spelled : SpellsElements taken items)
        (closes : closing.kind = .rightBracket) (opening : Token) (opens : opening.kind = .leftBracket) :
        Spells (opening :: (taken ++ [closing])) (.primary (.array items)) := spells_array opens closes spelled
    refine takes_closed .rightBracket ⟨_, rfl, rfl⟩ (takes_elements fuel _ (by omega))
      (fun taken items closing spelled closes => .now (whole taken items closing spelled closes))
      fun taken items closing spelled closes _ => takes_pure (whole taken items closing spelled closes)

theorem takes_elements : (fuel limit : Nat) → 4 * limit + 3 ≤ fuel → (elements fuel).Takes limit SpellsElements
  | 0, _, enough => by omega
  | fuel + 1, limit, enough => by
    unfold elements
    refine takes_look (sees_looks _) fun found => takes_ite (takes_pure .none) ?_
    refine takes_bind (takes_assignment fuel _ (by omega)) (fun ts element spelled => .now (.some (.item spelled)))
      fun ts element spelled few => ?_
    refine takes_accept_ite .comma ⟨_, rfl, rfl⟩ (fun comma mark some_ => ?_) ?_
    · exact takes_map (takes_elements fuel _ (by omega)) fun us others also => also.after mark spelled
    · exact takes_pure (.some (by simpa using .item spelled))

private theorem takes_object : (fuel limit : Nat) → 4 * limit + 2 ≤ fuel →
    (object fuel).Takes limit fun taken node =>
    ∀ opening : Token, opening.kind = .leftBrace → Spells (opening :: taken) (.primary node)
  | 0, _, enough => by omega
  | fuel + 1, limit, enough => by
    unfold object
    have whole (taken : List Token) (items : List Node) (closing : Token) (spelled : Spells taken (.properties items))
        (closes : closing.kind = .rightBrace) (opening : Token) (opens : opening.kind = .leftBrace) :
        Spells (opening :: (taken ++ [closing])) (.primary (.object items)) := .object opens closes spelled
    refine takes_accept_ite .rightBrace ⟨_, rfl, rfl⟩ (fun closing closes some_ => ?_) ?_
    · exact takes_pure fun opening opens => .emptyObject opens closes
    · refine takes_closed .rightBrace ⟨_, rfl, rfl⟩ (takes_properties fuel _ (by omega))
        (fun taken items closing spelled closes => .now (whole taken items closing spelled closes))
        fun taken items closing spelled closes _ => takes_pure (whole taken items closing spelled closes)

theorem takes_properties : (fuel limit : Nat) → 4 * limit + 1 ≤ fuel →
    (properties fuel).Takes limit fun taken nodes => Spells taken (.properties nodes)
  | 0, _, enough => by omega
  | fuel + 1, limit, enough => by
    unfold properties
    refine takes_closed .colon ⟨_, rfl, rfl⟩ takes_key ?_ fun taken name colon isKey mark few => ?_
    · rintro _ name colon ⟨word, rfl, isKey⟩ mark
      exact .before_word fun value is free => .now (.property isKey mark (spells_word is free))
    obtain ⟨word, rfl, isKey⟩ := isKey
    rw [List.length_singleton] at few ⊢
    refine takes_bind (takes_assignment fuel _ (by omega))
      (fun ts value spelled => .now (.property isKey mark spelled)) fun ts value spelled _ => ?_
    refine takes_accept_ite .comma ⟨_, rfl, rfl⟩ (fun comma next some_ => ?_) ?_
    · exact takes_map (takes_properties fuel _ (by omega)) fun us others also =>
        .properties isKey mark spelled next also
    · exact takes_pure (by simpa using .property isKey mark spelled)

private theorem takes_arguments :
    (fuel limit : Nat) → 4 * limit + 4 ≤ fuel → (arguments fuel).Takes limit SpellsArguments
  | 0, _, enough => by omega
  | fuel + 1, limit, enough => by
    unfold arguments
    refine takes_look (sees_looks _) fun found => takes_ite (takes_pure .none) ?_
    exact (takes_someArguments fuel _ (by omega)).weaken fun taken nodes spelled => .some spelled

theorem takes_someArguments : (fuel limit : Nat) → 4 * limit + 3 ≤ fuel →
    (someArguments fuel).Takes limit fun taken nodes => Spells taken (.items nodes)
  | 0, _, enough => by omega
  | fuel + 1, limit, enough => by
    unfold someArguments
    refine takes_bind (takes_assignment fuel _ (by omega)) (fun ts argument spelled => .now (.item spelled))
      fun ts argument spelled few => ?_
    refine takes_accept_ite .comma ⟨_, rfl, rfl⟩ (fun comma mark some_ => ?_) ?_
    · exact takes_map (takes_someArguments fuel _ (by omega)) fun us others also => .items mark spelled also
    · exact takes_pure (by simpa using .item spelled)

end

def unread (rest : List Token) : Option Token :=
  rest.head?.filter fun token => token.kind ≠ .endOfInput

theorem unread_eq_none_iff {rest : List Token} :
    unread rest = none ↔ ∀ token ∈ rest.head?, token.kind = .endOfInput := by
  simp [unread, Option.filter_eq_none_iff]

theorem unread_eq_some_iff {rest : List Token} {token : Token} :
    unread rest = some token ↔ ∃ others, rest = token :: others ∧ token.kind ≠ .endOfInput := by
  simp [unread, Option.filter_eq_some_iff, List.head?_eq_some_iff]

theorem peek_any (rest : List Token) : (peek []).run.run rest = (.ok (unread rest), rest) := by
  cases rest with
  | nil => rfl
  | cons token rest =>
    change (if token.kind = .endOfInput then pure none
      else pure (some token) : Reader (Option Token)).run.run (token :: rest) = _
    rw [unread, List.head?_cons, Option.filter_some]
    by_cases end_ : token.kind = .endOfInput
    · rw [if_pos end_, if_neg (by simp [end_])]
      rfl
    · rw [if_neg end_, if_pos (decide_eq_true end_)]
      rfl

theorem run_complete (production : Nat → Reader α) (tokens : List Token) :
    (complete production).run.run tokens = (production (enough tokens)).run.run tokens :=
  rfl

/-- The reader takes an expression from the front, and a strict one leaves nothing behind it but the end of input. It
fails at the token behind those that it has taken, where others would have gone on to an expression. -/
theorem program_takes (strict : Bool) {tokens : List Token} (lexical : AreLexical tokens) :
    match (program strict).run.run tokens with
    | (.ok (tree, leftover), rest) => ∃ taken a, tokens = taken ++ rest ∧ tree = .program a ∧
        Spells taken (.expression a) ∧ leftover = unread rest ∧ (strict → leftover = none)
    | (.error failure, rest) => ∃ taken expected, tokens = taken ++ rest ∧
        failure = .unexpectedToken expected (front rest).position ∧
        GoesOn (fun taken a => Spells taken (.expression a)) taken := by
  have takes := takes_assignment (enough tokens) tokens.length (by rw [enough]; omega) tokens lexical (Nat.le_refl _)
  have whole := run_complete assignment tokens
  rw [program]
  rcases read : (assignment (enough tokens)).run.run tokens with ⟨failure | a, rest⟩
  · rw [read] at whole takes
    rw [run_bind_error whole]
    exact takes
  · rw [read] at whole takes
    obtain ⟨taken, split, spelled⟩ := takes
    rw [run_bind_ok whole, run_bind_ok (peek_any rest)]
    cases seen : unread rest with
    | none => exact ⟨taken, a, split, rfl, spelled, seen.symm, fun _ => rfl⟩
    | some token =>
      cases strict with
      | false => exact ⟨taken, a, split, rfl, spelled, seen.symm, nofun⟩
      | true =>
        obtain ⟨others, rfl, _⟩ := unread_eq_some_iff.mp seen
        exact ⟨taken, _, split, rfl, .now spelled⟩

theorem ofTokens_takes (strict : Bool) {tokens : List Token} (lexical : AreLexical tokens) :
    match Node.ofTokens strict tokens with
    | .ok (tree, leftover) => ∃ taken rest a, tokens = taken ++ rest ∧ tree = .program a ∧
        Spells taken (.expression a) ∧
        (strict → leftover = none ∧ ∀ token ∈ rest.head?, token.kind = .endOfInput)
    | .error failure => ∃ expected position, failure = .unexpectedToken expected position := by
  have takes := program_takes strict lexical
  rw [Node.ofTokens]
  revert takes
  rcases (program strict).run.run tokens with ⟨failure | ⟨tree, leftover⟩, rest⟩
  · rintro ⟨_, expected, _, failed, _⟩
    exact ⟨expected, _, failed⟩
  · rintro ⟨taken, a, split, isProgram, spelled, rfl, none_⟩
    exact ⟨taken, rest, a, split, isProgram, spelled,
      fun isStrict => ⟨none_ isStrict, unread_eq_none_iff.mp (none_ isStrict)⟩⟩

end Reader

end GuardedExpr

import GuardedExpr.Proofs.Node.ReaderCompleteness

/-!
The reader looks at no more than the next token: what it does with the tokens that it takes, it does again wherever
the same token stands behind them, and with any fuel that is enough. From this a reader that is not strict takes the
longest expression that there is, and a strict one fails only where none can be.
-/

namespace GuardedExpr

namespace Reader

open Token (AreLexical)

variable {α β : Type}

/-- What the one reader does with the tokens that it takes, short of running out of fuel, the other does with them
wherever the same token stands behind. -/
def Repeats (reader again : Reader α) : Prop :=
  ∀ tokens outcome rest, AreLexical tokens → reader.run.run tokens = (outcome, rest) →
    outcome ≠ .error (.fault .exhausted) → ∃ taken, tokens = taken ++ rest ∧ ∀ other : List Token, AreLexical other →
      other.head? = rest.head? → again.run.run (taken ++ other) = (outcome, other)

theorem repeats_pure (value : α) : Repeats (pure value) (pure value) := by
  rintro tokens _ _ _ ⟨⟩ _
  exact ⟨[], rfl, fun _ _ _ => rfl⟩

theorem repeats_throw (failure : Error) : Repeats (throw failure : Reader α) (throw failure) := by
  rintro tokens _ _ _ ⟨⟩ _
  exact ⟨[], rfl, fun _ _ _ => rfl⟩

theorem repeats_exhausted (again : Reader α) : Repeats (throw (.fault .exhausted)) again := by
  rintro tokens _ _ _ ⟨⟩ fed
  exact absurd rfl fed

theorem repeats_bind {reader again : Reader β} {next after : β → Reader α} (first : reader.Repeats again)
    (second : ∀ value, (next value).Repeats (after value)) : (reader >>= next).Repeats (again >>= after) := by
  intro tokens outcome rest lexical read fed
  rcases before : reader.run.run tokens with ⟨failure | value, left⟩
  · rw [run_bind_error before] at read
    cases read
    obtain ⟨taken, rfl, same⟩ := first _ _ _ lexical before
      fun same => fed (congrArg (Except.error ·) (Except.error.inj same))
    exact ⟨taken, rfl, fun other also fits => run_bind_error (same other also fits)⟩
  · rw [run_bind_ok before] at read
    obtain ⟨taken, rfl, same⟩ := first _ _ _ lexical before nofun
    obtain ⟨_, behind⟩ := areLexical_append.mp lexical
    obtain ⟨more, rfl, again⟩ := second value _ _ _ behind read fed
    refine ⟨taken ++ more, (List.append_assoc _ _ _).symm, fun other also fits => ?_⟩
    have seen : (more ++ other).head? = (more ++ rest).head? := by rw [List.head?_append, List.head?_append, fits]
    have whole := areLexical_append.mpr ⟨(areLexical_append.mp behind).1, also⟩
    rw [List.append_assoc, run_bind_ok (same _ whole seen), again other also fits]

theorem repeats_ite {condition : Prop} [Decidable condition] {yes no yesAgain noAgain : Reader α}
    (first : yes.Repeats yesAgain) (second : no.Repeats noAgain) :
    (if condition then yes else no).Repeats (if condition then yesAgain else noAgain) := by
  split
  · exact first
  · exact second

/-! Single tokens. -/

theorem repeats_current : current.Repeats current := by
  intro tokens outcome rest _ read _
  cases tokens with
  | nil =>
    cases read
    refine ⟨[], rfl, fun other _ fits => ?_⟩
    cases List.head?_eq_none_iff.mp fits
    rfl
  | cons token tokens =>
    cases read
    refine ⟨[], rfl, fun other _ fits => ?_⟩
    obtain ⟨others, rfl⟩ := List.head?_eq_some_iff.mp fits
    rfl

theorem repeats_skip : skip.Repeats skip := by
  intro tokens outcome rest _ read _
  cases tokens with
  | nil =>
    cases read
    refine ⟨[], rfl, fun other _ fits => ?_⟩
    cases List.head?_eq_none_iff.mp fits
    rfl
  | cons token tokens =>
    cases read
    exact ⟨[token], rfl, fun _ _ _ => rfl⟩

theorem repeats_peek (expected : List Text) : (peek expected).Repeats (peek expected) :=
  repeats_bind repeats_current fun _ =>
    repeats_ite (repeats_pure _) (repeats_ite (repeats_pure _) (repeats_pure _))

theorem repeats_expect (expected : List Text) : (expect expected).Repeats (expect expected) := by
  refine repeats_bind (repeats_peek _) fun found => ?_
  cases found with
  | some token => exact repeats_bind repeats_skip fun _ => repeats_pure _
  | none => exact repeats_pure _

private theorem repeats_accept (mark : String) : (accept mark).Repeats (accept mark) :=
  repeats_bind (repeats_expect _) fun _ => repeats_pure _

theorem repeats_sees (mark : String) : (sees mark).Repeats (sees mark) :=
  repeats_bind (repeats_peek _) fun _ => repeats_pure _

private theorem repeats_consume (expected : Text) :
    (consume expected).Repeats (consume expected) := by
  refine repeats_bind (repeats_expect _) fun found => ?_
  cases found with
  | some token => exact repeats_pure _
  | none => exact repeats_bind repeats_current fun _ => repeats_throw _

theorem repeats_identifier : identifier.Repeats identifier :=
  repeats_bind repeats_current fun _ =>
    repeats_ite (repeats_bind repeats_skip fun _ => repeats_pure _) (repeats_throw _)

theorem repeats_literal : literal.Repeats literal :=
  repeats_bind repeats_current fun _ =>
    repeats_ite (repeats_bind repeats_skip fun _ => repeats_pure _) (repeats_throw _)

private theorem repeats_key : key.Repeats key :=
  repeats_bind repeats_current fun _ => repeats_ite repeats_identifier repeats_literal

private theorem repeats_atom : atom.Repeats atom := by
  refine repeats_bind repeats_current fun token => repeats_ite ?_ repeats_literal
  cases Node.ofReserved? token.text with
  | some node => exact repeats_bind repeats_skip fun _ => repeats_pure _
  | none => exact repeats_identifier

/-- What is read behind a mark that may be there, and what is read where it is not. -/
theorem repeats_accept_ite {mark : String} {yes no yesAgain noAgain : Reader α} (first : yes.Repeats yesAgain)
    (second : no.Repeats noAgain) : Repeats (do if ← accept mark then yes else no)
      (do if ← accept mark then yesAgain else noAgain) :=
  repeats_bind (repeats_accept mark) fun _ => repeats_ite first second

theorem repeats_consume_then {expected : Text} {next after : Reader α} (second : next.Repeats after) :
    Repeats (do let _ ← consume expected; next) (do let _ ← consume expected; after) :=
  repeats_bind (repeats_consume expected) fun _ => second

theorem repeats_map {reader again : Reader β} (make : β → α) (first : reader.Repeats again) :
    Repeats (do return make (← reader)) (do return make (← again)) :=
  repeats_bind first fun _ => repeats_pure _

/-! The productions, by induction on the fuel of the first run. -/

mutual

theorem repeats_assignment : (fuel more : Nat) → fuel ≤ more → (assignment fuel).Repeats (assignment more)
  | 0, _, _ => by
    rw [assignment]
    exact repeats_exhausted _
  | fuel + 1, more + 1, most => by
    have inner := repeats_primary fuel more (Nat.le_of_succ_le_succ most)
    unfold assignment
    exact repeats_bind inner fun left => repeats_accept_ite (repeats_map _ inner) (repeats_pure left)

private theorem repeats_primary :
    (fuel more : Nat) → fuel ≤ more → (primary fuel).Repeats (primary more)
  | 0, _, _ => by
    rw [primary]
    exact repeats_exhausted _
  | fuel + 1, more + 1, most => by
    have less := Nat.le_of_succ_le_succ most
    unfold primary
    refine repeats_accept_ite (repeats_bind (repeats_array fuel more less) fun node => ?_)
      (repeats_accept_ite (repeats_bind (repeats_object fuel more less) fun node => ?_)
        (repeats_bind repeats_atom fun node => ?_))
    all_goals exact repeats_suffixes fuel more node less

theorem repeats_suffixes : (fuel more : Nat) → (subject : Node) → fuel ≤ more →
    (suffixes fuel subject).Repeats (suffixes more subject)
  | 0, _, _, _ => by
    rw [suffixes]
    exact repeats_exhausted _
  | fuel + 1, more + 1, subject, most => by
    have less := Nat.le_of_succ_le_succ most
    unfold suffixes
    refine repeats_accept_ite (repeats_bind repeats_identifier fun name => ?_)
      (repeats_accept_ite
        (repeats_bind (repeats_assignment fuel more less) fun property => repeats_consume_then ?_)
        (repeats_accept_ite
          (repeats_bind (repeats_arguments fuel more less) fun items => repeats_consume_then ?_)
          (repeats_pure subject)))
    all_goals exact repeats_suffixes fuel more _ less

private theorem repeats_array : (fuel more : Nat) → fuel ≤ more → (array fuel).Repeats (array more)
  | 0, _, _ => by
    rw [array]
    exact repeats_exhausted _
  | fuel + 1, more + 1, most => by
    unfold array
    exact repeats_bind (repeats_elements fuel more (Nat.le_of_succ_le_succ most)) fun items =>
      repeats_consume_then (repeats_pure _)

theorem repeats_elements : (fuel more : Nat) → fuel ≤ more → (elements fuel).Repeats (elements more)
  | 0, _, _ => by
    rw [elements]
    exact repeats_exhausted _
  | fuel + 1, more + 1, most => by
    have less := Nat.le_of_succ_le_succ most
    unfold elements
    exact repeats_bind (repeats_sees _) fun _ => repeats_ite (repeats_pure _)
      (repeats_bind (repeats_assignment fuel more less) fun element =>
        repeats_accept_ite (repeats_map _ (repeats_elements fuel more less)) (repeats_pure _))

private theorem repeats_object :
    (fuel more : Nat) → fuel ≤ more → (object fuel).Repeats (object more)
  | 0, _, _ => by
    rw [object]
    exact repeats_exhausted _
  | fuel + 1, more + 1, most => by
    unfold object
    exact repeats_accept_ite (repeats_pure _)
      (repeats_bind (repeats_properties fuel more (Nat.le_of_succ_le_succ most)) fun items =>
        repeats_consume_then (repeats_pure _))

theorem repeats_properties : (fuel more : Nat) → fuel ≤ more → (properties fuel).Repeats (properties more)
  | 0, _, _ => by
    rw [properties]
    exact repeats_exhausted _
  | fuel + 1, more + 1, most => by
    have less := Nat.le_of_succ_le_succ most
    unfold properties
    exact repeats_bind repeats_key fun name => repeats_consume_then
      (repeats_bind (repeats_assignment fuel more less) fun value =>
        repeats_accept_ite (repeats_map _ (repeats_properties fuel more less)) (repeats_pure _))

private theorem repeats_arguments :
    (fuel more : Nat) → fuel ≤ more → (arguments fuel).Repeats (arguments more)
  | 0, _, _ => by
    rw [arguments]
    exact repeats_exhausted _
  | fuel + 1, more + 1, most => by
    unfold arguments
    exact repeats_bind (repeats_sees _) fun _ => repeats_ite (repeats_pure _)
      (repeats_someArguments fuel more (Nat.le_of_succ_le_succ most))

theorem repeats_someArguments : (fuel more : Nat) → fuel ≤ more →
    (someArguments fuel).Repeats (someArguments more)
  | 0, _, _ => by
    rw [someArguments]
    exact repeats_exhausted _
  | fuel + 1, more + 1, most => by
    have less := Nat.le_of_succ_le_succ most
    unfold someArguments
    exact repeats_bind (repeats_assignment fuel more less) fun argument =>
      repeats_accept_ite (repeats_map _ (repeats_someArguments fuel more less)) (repeats_pure _)

end

theorem ne_exhausted_of_enough {tokens rest : List Token} {outcome : Except Error Node} (lexical : AreLexical tokens)
    (read : (assignment (enough tokens)).run.run tokens = (outcome, rest)) : outcome ≠ .error (.fault .exhausted) := by
  have takes := takes_assignment (enough tokens) tokens.length (by rw [enough]; omega) tokens lexical (Nat.le_refl _)
  rw [read] at takes
  rintro rfl
  obtain ⟨_, _, _, failed, _⟩ := takes
  cases failed

/-- With as much fuel as its tokens ask for, an expression is read again as it was. -/
theorem repeats_complete : (complete assignment).Repeats (complete assignment) := by
  intro tokens outcome rest lexical read _
  rw [run_complete] at read
  have fed := ne_exhausted_of_enough lexical read
  obtain ⟨taken, rfl, _⟩ := repeats_assignment _ _ (Nat.le_refl _) _ _ _ lexical read fed
  refine ⟨taken, rfl, fun other also fits => ?_⟩
  -- Neither of the fuels need be the greater one, so both runs are compared with one that has as much as either.
  let most := max (enough (taken ++ rest)) (enough (taken ++ other))
  have whole : AreLexical (taken ++ other) := areLexical_append.mpr ⟨(areLexical_append.mp lexical).1, also⟩
  rcases ran : (assignment (enough (taken ++ other))).run.run (taken ++ other) with ⟨result, left⟩
  obtain ⟨first, split, again⟩ := repeats_assignment _ most (Nat.le_max_left _ _) _ _ _ lexical read fed
  obtain ⟨front, resplit, repeated⟩ := repeats_assignment _ most (Nat.le_max_right _ _) _ _ _ whole ran
    (ne_exhausted_of_enough whole ran)
  cases List.append_cancel_right split
  have same := repeated left (areLexical_append.mp (resplit ▸ whole)).2 rfl
  rw [run_complete, ran, ← again other also fits, resplit, same]

private theorem repeats_program (strict : Bool) : (program strict).Repeats (program strict) := by
  refine repeats_bind repeats_complete fun body => repeats_bind (repeats_peek _) fun leftover => ?_
  cases leftover with
  | some token => exact repeats_ite (repeats_throw _) (repeats_pure _)
  | none => exact repeats_pure _

theorem ofTokens_strict_iff {tokens : List Token} {tree : Node} {leftover : Option Token} :
    Node.ofTokens true tokens = .ok (tree, leftover) ↔
      leftover = none ∧ Node.ofTokens false tokens = .ok (tree, none) := by
  rw [Node.ofTokens, Node.ofTokens, program, program]
  rcases read : (complete assignment).run.run tokens with ⟨failure | a, rest⟩
  · rw [run_bind_error read, run_bind_error read]
    refine ⟨fun impossible => ?_, fun impossible => ?_⟩
    · cases impossible
    · cases impossible.2
  · rw [run_bind_ok read, run_bind_ok read, run_bind_ok (peek_any rest), run_bind_ok (peek_any rest)]
    cases unread rest with
    | none =>
      constructor
      · rintro ⟨⟩
        exact ⟨rfl, rfl⟩
      · rintro ⟨rfl, ⟨⟩⟩
        rfl
    | some token =>
      refine ⟨fun impossible => ?_, fun impossible => ?_⟩
      · cases impossible
      · cases impossible.2

private theorem areLexical_end : AreLexical [front []] :=
  List.forall_mem_singleton.mpr rfl

/-- Where a reader stands at a token without a tree for all that there was, no expression goes on with the token. -/
theorem not_spells_of_stuck {strict : Bool} {taken rest more : List Token} {next : Token}
    {outcome : Except Error (Node × Option Token)} {a : Node} (lexical : AreLexical (taken ++ next :: rest))
    (read : (program strict).run.run (taken ++ next :: rest) = (outcome, next :: rest))
    (stuck : ∀ tree, outcome ≠ .ok (tree, none)) (also : AreLexical more) :
    ¬ Spells (taken ++ next :: more) (.expression a) := by
  intro spelled
  have fed : outcome ≠ .error (.fault .exhausted) := by
    rintro rfl
    have takes := program_takes strict lexical
    rw [read] at takes
    obtain ⟨_, _, _, failed, _⟩ := takes
    cases failed
  obtain ⟨front_, split, again⟩ := repeats_program strict _ _ _ lexical read fed
  cases List.append_cancel_right split
  have behind : AreLexical (next :: more ++ [front []]) :=
    areLexical_append.mpr ⟨areLexical_cons.mpr ⟨lexical next (by simp), also⟩, areLexical_end⟩
  have whole : AreLexical ((taken ++ next :: more) ++ [front []]) := by
    rw [List.append_assoc]
    exact areLexical_append.mpr ⟨(areLexical_append.mp lexical).1, behind⟩
  have complete : Node.ofTokens true ((taken ++ next :: more) ++ [front []]) = .ok (.program a, none) :=
    (ofTokens_eq_ok_iff whole (kind_of_spells spelled) rfl).mpr ⟨rfl, a, rfl, spelled⟩
  have either : Node.ofTokens strict ((taken ++ next :: more) ++ [front []]) = .ok (.program a, none) := by
    cases strict with
    | true => exact complete
    | false => exact (ofTokens_strict_iff.mp complete).2
  rw [Node.ofTokens, List.append_assoc, again _ behind rfl] at either
  exact stuck _ either

private theorem program_longest {body : List Token} {last : Token}
    (lexical : AreLexical (body ++ [last]))
    (end_ : last.kind = .endOfInput) (open_ : ∀ token ∈ body, token.kind ≠ .endOfInput) {tree : Node}
    {leftover : Option Token} {rest : List Token}
    (read : (program false).run.run (body ++ [last]) = (.ok (tree, leftover), rest)) :
    ∃ p ≤ body.length, rest = body.drop p ++ [last] ∧ leftover = body[p]? ∧
      (∃ a, tree = .program a ∧ Spells (body.take p) (.expression a)) ∧
      ∀ q, p < q → q ≤ body.length → ¬ ∃ a, Spells (body.take q) (.expression a) := by
  have takes := program_takes false lexical
  rw [read] at takes
  obtain ⟨taken, a, split, rfl, spelled, rfl, _⟩ := takes
  obtain ⟨behind, rfl, rfl⟩ := exists_behind split end_ (kind_of_spells spelled)
  have left : unread (behind ++ [last]) = behind.head? := by
    cases behind with
    | nil => exact unread_eq_none_iff.mpr (by simpa using end_)
    | cons token behind => exact unread_eq_some_iff.mpr ⟨_, rfl, open_ token (by simp)⟩
  refine ⟨taken.length, by simp, by rw [List.drop_left], ?_, ⟨a, rfl, by rwa [List.take_left]⟩, ?_⟩
  · rw [left, List.getElem?_append_right (Nat.le_refl _), Nat.sub_self, List.head?_eq_getElem?]
  · rintro q longer most ⟨b, also⟩
    obtain ⟨extra, rfl⟩ := Nat.exists_eq_add_of_lt longer
    cases behind with
    | nil =>
      rw [List.append_nil] at most
      omega
    | cons next behind =>
      rw [Nat.add_assoc, List.take_length_add_append, List.take_succ_cons] at also
      rw [List.append_assoc] at lexical read
      refine not_spells_of_stuck lexical read (fun tree => ?_) ?_ also
      · rw [left]
        nofun
      · exact fun token member => lexical token (by simp [List.mem_of_mem_take member])

end Reader

/-- The token that was left unread is warned of, whether or not the tree can be compiled, and no other. -/
theorem Evaluator.warns_iff {h : Heap} {strict : Bool} {marks : Nat} {source : Text} {tree : Node}
    {leftover : Option Token} (parsed : parse strict marks source = .ok (tree, leftover)) (token : Token) :
    .ignored token ∈ (ofSource h strict marks source).1 ↔ leftover = some token := by
  have warned : .ignored token ∈ leftover.toList.map Notice.ignored ↔ leftover = some token := by
    simp
  rw [ofSource, parsed]
  dsimp only
  cases ofTree h tree source with
  | error failure => exact warned
  | ok evaluator =>
    rw [List.mem_append, warned, List.mem_singleton]
    exact or_iff_left nofun

/-- For the tokens of any source, a reader that is not strict takes the longest expression in front of them, if it
takes one: a strict reader makes the same of the tokens that were taken, and of no more of them. It warns exactly where
it leaves some of them unread, and it succeeds without a warning exactly where a strict reader succeeds, and with the
same tree. -/
theorem ofTokens_takes_longest {source : Text} {tokens : List Token} (h : Heap) (marks : Nat)
    (made : tokenize source = .ok tokens) :
    ∃ body last, tokens.map (Token.remark marks) = body ++ [last] ∧ last.kind = .endOfInput ∧
      (∀ token ∈ body, token.kind ≠ .endOfInput) ∧
      (∀ tree leftover rest, (Reader.program false).run.run (body ++ [last]) = (.ok (tree, leftover), rest) →
        ∃ p ≤ body.length, rest = body.drop p ++ [last] ∧ leftover = body[p]? ∧
          Node.ofTokens true (body.take p ++ [last]) = .ok (tree, none) ∧
          (∀ q, p < q → q ≤ body.length → ¬ ∃ a, Spells (body.take q) (.expression a)) ∧
          ((∃ token, .ignored token ∈ (Evaluator.ofSource h false marks source).1) ↔ p < body.length)) ∧
      ∀ tree leftover, Node.ofTokens true (body ++ [last]) = .ok (tree, leftover) ↔
        leftover = none ∧ Node.ofTokens false (body ++ [last]) = .ok (tree, none) := by
  obtain ⟨body, last, split, end_, open_, lexical⟩ := lexical_of_tokenize marks made
  refine ⟨body, last, split, end_, open_, fun tree leftover rest read => ?_, fun _ _ => Reader.ofTokens_strict_iff⟩
  obtain ⟨p, most, left, unread, ⟨a, rfl, spelled⟩, longest⟩ := Reader.program_longest lexical end_ open_ read
  refine ⟨p, most, left, unread, ?_, longest, ?_⟩
  · have part : Token.AreLexical (body.take p ++ [last]) := fun token member => lexical token (by
      rcases List.mem_append.mp member with inside | inside
      · exact List.mem_append_left _ (List.mem_of_mem_take inside)
      · exact List.mem_append_right _ inside)
    exact (Reader.ofTokens_eq_ok_iff part (fun token member => open_ token (List.mem_of_mem_take member)) end_).mpr
      ⟨rfl, a, rfl, spelled⟩
  · have parsed : Evaluator.parse false marks source = .ok (.program a, leftover) := by
      rw [Evaluator.parse, made]
      change Node.ofTokens false (tokens.map (Token.remark marks)) = _
      rw [split, Node.ofTokens, read]
    simp only [Evaluator.warns_iff parsed, unread, List.getElem?_eq_some_iff]
    constructor
    · rintro ⟨_, inside, _⟩
      exact inside
    · exact fun inside => ⟨_, inside, rfl⟩

/-- Of two names behind each other the first is taken, and both together are no expression. -/
theorem takes_first_of_two_names :
    let tokens : List Token := [⟨.identifier, Text.of "a", .null, ⟨1, 1⟩⟩, ⟨.identifier, Text.of "b", .null, ⟨1, 3⟩⟩,
      ⟨.endOfInput, [], .null, ⟨1, 4⟩⟩]
    tokenize (Text.of "a b") = .ok tokens ∧ ∃ body last, tokens = body ++ [last] ∧ ∃ p < body.length,
      Node.ofTokens true (body.take p ++ [last]) = .ok (.program (.identifier (Text.of "a")), none) ∧
        ¬ ∃ a, Spells body (.expression a) := by
  intro tokens
  have made : tokenize (Text.of "a b") = .ok tokens := rfl
  refine ⟨made, ?_⟩
  obtain ⟨body, last, split, _, _, takes, _⟩ := ofTokens_takes_longest ⟨#[]⟩ 0 made
  have read : (Reader.program false).run.run tokens =
      (.ok (.program (.identifier (Text.of "a")), some ⟨.identifier, Text.of "b", .null, ⟨1, 3⟩⟩), tokens.drop 1) := rfl
  have same : tokens = body ++ [last] := split
  rw [same] at read
  obtain ⟨p, _, _, unread, part, longest, _⟩ := takes _ _ _ read
  obtain ⟨fewer, _⟩ := List.getElem?_eq_some_iff.mp unread.symm
  refine ⟨body, last, same, p, fewer, part, fun spelled => ?_⟩
  exact longest body.length fewer (Nat.le_refl _) (by rwa [List.take_length])

end GuardedExpr

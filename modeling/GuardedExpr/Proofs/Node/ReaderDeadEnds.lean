import GuardedExpr.Proofs.Node.ReaderLookahead
import GuardedExpr.Proofs.Token.TokenPlaces

/-!
Where a strict reader fails, it fails at the first token that no expression goes on with.
-/

namespace GuardedExpr

def Token.AreProgram (tokens : List Token) : Prop :=
  AreLexical tokens ∧ ∃ a, Spells tokens (.expression a)

/-- A reader fails at a token that is there: behind what was taken others would have gone on, and so the end of input
has not been taken. -/
theorem Reader.exists_blamed {body rest : List Token} {last : Token} {strict : Bool} {failure : Error}
    (lexical : Token.AreLexical (body ++ [last])) (end_ : last.kind = .endOfInput)
    (read : (program strict).run.run (body ++ [last]) = (.error failure, rest)) :
    ∃ before token after, body ++ [last] = before ++ token :: after ∧ rest = token :: after ∧
      (∃ expected, failure = .unexpectedToken expected token.position) ∧
      ∃ more, Token.AreProgram (before ++ more) := by
  have takes := program_takes strict lexical
  rw [read] at takes
  obtain ⟨before, expected, split, failed, more, a, also, spelled⟩ := takes
  have written : ∀ token ∈ before, token.kind ≠ .endOfInput := fun token member =>
    kind_of_spells spelled token (List.mem_append_left _ member)
  have taken : Token.AreLexical before := fun token member => lexical token (by
    rw [split]
    exact List.mem_append_left _ member)
  obtain ⟨behind, rfl, rfl⟩ := exists_behind split end_ written
  obtain ⟨token, after, left⟩ := List.exists_cons_of_ne_nil (List.append_ne_nil_of_right_ne_nil behind
    (List.cons_ne_nil last []))
  rw [left] at split failed ⊢
  exact ⟨before, token, after, split, rfl, ⟨expected, failed⟩, more, areLexical_append.mpr ⟨taken, also⟩, a, spelled⟩

/-- For the tokens of any source, a strict reader that fails blames the first token that cannot be: the place that it
gives is that of one token only, the tokens before this one are the front of an expression, and no expression begins
with them and this token. Where it blames the end of input, the tokens before it are no expression. -/
theorem ofTokens_blames_dead_end {source : Text} {tokens : List Token} {failure : Error} (marks : Nat)
    (made : tokenize source = .ok tokens)
    (failed : Node.ofTokens true (tokens.map (Token.remark marks)) = .error failure) :
    ∃ before token after, tokens.map (Token.remark marks) = before ++ token :: after ∧
      (∃ expected, failure = .unexpectedToken expected token.position) ∧
      (∀ other ∈ before ++ after, other.position ≠ token.position) ∧
      (∃ more, Token.AreProgram (before ++ more)) ∧
      (∀ more, ¬ Token.AreProgram (before ++ token :: more)) ∧
      (token.kind = .endOfInput → after = [] ∧ ¬ Token.AreProgram before) := by
  obtain ⟨body, last, split, end_, open_, lexical⟩ := lexical_of_tokenize marks made
  rw [split] at failed
  rcases read : (Reader.program true).run.run (body ++ [last]) with ⟨outcome, rest⟩
  rw [Node.ofTokens, read] at failed
  cases failed
  obtain ⟨before, token, after, cut, rfl, blamed, viable⟩ := Reader.exists_blamed lexical end_ read
  rw [split]
  refine ⟨before, token, after, cut, blamed, ne_position_of_tokenize marks made (split.trans cut), viable, ?_, ?_⟩
  · rintro more ⟨also, a, spelled⟩
    rw [cut] at lexical read
    have stuck (tree : Node) : (Except.error failure : Except Error (Node × Option Token)) ≠ .ok (tree, none) := by
      rintro ⟨⟩
    exact Reader.not_spells_of_stuck lexical read stuck
      (Reader.areLexical_cons.mp (Reader.areLexical_append.mp also).2).2 spelled
  · intro isEnd
    rcases List.eq_nil_or_concat after with rfl | ⟨front, other, rfl⟩
    · obtain ⟨rfl, _⟩ := List.append_inj' cut rfl
      refine ⟨rfl, ?_⟩
      rintro ⟨_, a, spelled⟩
      have accepted := (Reader.ofTokens_eq_ok_iff lexical open_ end_).mpr ⟨rfl, a, rfl, spelled⟩
      rw [Node.ofTokens, read] at accepted
      cases accepted
    · rw [List.concat_eq_append, ← List.cons_append, ← List.append_assoc] at cut
      obtain ⟨rfl, _⟩ := List.append_inj' cut rfl
      exact absurd isEnd (open_ token (by simp))

/-- In `[a b]` it is the second name that no expression goes on with. -/
theorem blames_second_of_two_names :
    let tokens : List Token := [⟨.leftBracket, Text.of "[", .null, ⟨1, 1⟩⟩, ⟨.identifier, Text.of "a", .null, ⟨1, 2⟩⟩,
      ⟨.identifier, Text.of "b", .null, ⟨1, 4⟩⟩, ⟨.rightBracket, Text.of "]", .null, ⟨1, 5⟩⟩,
      ⟨.endOfInput, [], .null, ⟨1, 6⟩⟩]
    tokenize (Text.of "[a b]") = .ok tokens ∧
      Node.ofTokens true tokens = .error (.unexpectedToken (Text.of "]") ⟨1, 4⟩) ∧
      ∃ before token after, tokens = before ++ token :: after ∧ token.position = ⟨1, 4⟩ ∧
        (∃ more, Token.AreProgram (before ++ more)) ∧ ∀ more, ¬ Token.AreProgram (before ++ token :: more) := by
  intro tokens
  have made : tokenize (Text.of "[a b]") = .ok tokens := rfl
  have failed : Node.ofTokens true (tokens.map (Token.remark 0)) =
      .error (.unexpectedToken (Text.of "]") ⟨1, 4⟩) := rfl
  obtain ⟨before, token, after, split, ⟨_, blamed⟩, _, viable, dead, _⟩ := ofTokens_blames_dead_end 0 made failed
  have place : token.position = ⟨1, 4⟩ := (Error.unexpectedToken.inj blamed).2.symm
  exact ⟨made, failed, before, token, after, split, place, viable, dead⟩

end GuardedExpr

import GuardedExpr.Prompt.Highlight
import GuardedExpr.Proofs.Token.SourceFronts

/-!
Highlighting only takes a line apart. The fragments put together are the line, since each token stands at its column
and what is between two tokens is kept; and where a line has an error, the front up to its column has none.
-/

namespace GuardedExpr

/-- In a text of one line the column tells how much stands before a place. -/
theorem Position.behind_of_line {before : Text} (single : CodePoint.ofChar '\n' ∉ before) :
    Position.behind before = ⟨1, 1 + before.length⟩ := by
  have whole : before.reverse.takeWhile (· ≠ CodePoint.ofChar '\n') = before.reverse := by
    refine List.takeWhile_eq_self_iff.mpr fun c member => ?_
    have other : c ≠ CodePoint.ofChar '\n' := fun same => single (same ▸ List.mem_reverse.mp member)
    simpa using other
  rw [behind, whole, List.count_eq_zero_of_not_mem single, List.length_reverse]

namespace Highlight

variable {text : Text} {tokens : List Token} {token : Token} {reached first : Nat} {s last : Scanner}

open Scanner

/-! Fragments put together. -/

private theorem slice_append_drop (ordered : reached ≤ first) :
    slice text reached first ++ text.drop first = text.drop reached := by
  have behind : text.drop first = (text.drop reached).drop (first - reached) := by
    rw [List.drop_drop, Nat.add_sub_cancel' ordered]
  rw [slice, behind, List.take_append_drop]

private theorem flatMap_fragments_cons (written : token.kind ≠ .endOfInput)
    (place : (token.position.column - 1).toNat = first) :
    (fragments text reached (token :: tokens)).flatMap Fragment.text =
      slice text reached first ++ (token.text ++
        (fragments text (first + token.text.length) tokens).flatMap Fragment.text) := by
  rw [fragments, if_neg written]
  dsimp only
  rw [place]
  split
  · simp
  · next behind => simp [slice, Nat.sub_eq_zero_of_le (Nat.le_of_not_lt behind)]

private theorem flatMap_fragments_end (place : Position) :
    (fragments text reached [⟨.endOfInput, [], .null, place⟩]).flatMap Fragment.text = text.drop reached := by
  rw [fragments, if_pos rfl, fragments]
  split
  · simp
  · next beyond => simp [List.drop_eq_nil_iff.mpr (Nat.le_of_not_lt beyond)]

/-- A scanner of one line that has something left is as far in it as its column tells. -/
theorem column_eq_offset (single : CodePoint.ofChar '\n' ∉ text) (keeps : Keeps text s) (some_ : s.rest ≠ []) :
    (s.position.column - 1).toNat = s.offset := by
  rw [keeps.place, Position.behind_of_line fun member => single (List.mem_of_mem_take member),
    List.length_take_of_le (keeps.offset_lt some_).le]
  dsimp only
  omega

/-- Fragments of the tokens that a course of steps makes, put together, are what the line has from there on. -/
theorem flatMap_fragments (single : CodePoint.ofChar '\n' ∉ text) (runs : s.Runs last) (keeps : Keeps text s) :
    ∃ fresh, last.tokens = s.tokens ++ fresh ∧ ∀ reached ≤ s.offset, ∀ place,
      (fragments text reached (fresh ++ [⟨.endOfInput, [], .null, place⟩])).flatMap Fragment.text =
        text.drop reached := by
  induction runs using Relation.ReflTransGen.head_induction_on with
  | refl => exact ⟨[], (List.append_nil _).symm, fun reached _ place => flatMap_fragments_end place⟩
  | @head s next moves runs hypothesis =>
    have keepsNext : Keeps text next := Runs.keeps (.single moves) keeps
    obtain ⟨fresh, made, joined⟩ := hypothesis keepsNext
    rcases moves.cases with same | ⟨token, makes, rfl⟩
    · exact ⟨fresh, same ▸ made, fun reached within place => joined reached (within.trans moves.offset_lt.le) place⟩
    · refine ⟨token :: fresh, ?_, fun reached within place => ?_⟩
      · rw [made, tokens_add, tokens_passing, List.append_assoc]
        rfl
      · obtain ⟨more, front⟩ := makes.front
        have here : (token.position.column - 1).toNat = s.offset := by
          rw [makes.begins]
          exact column_eq_offset single keeps moves.1
        have behind : token.text ++ text.drop (s.offset + token.text.length) = text.drop s.offset := by
          rw [← List.drop_drop, ← keeps.same]
          change token.text ++ s.rest.drop token.text.length = s.rest
          rw [front, List.drop_left]
        rw [List.cons_append, flatMap_fragments_cons makes.written here,
          joined (s.offset + token.text.length) (Nat.le_refl _) place, behind, slice_append_drop within]

private theorem flatMap_fragments_of_tokenize (single : CodePoint.ofChar '\n' ∉ text)
    (made : tokenize text = .ok tokens) :
    (fragments text 0 tokens).flatMap Fragment.text = text := by
  obtain ⟨last, runs, _, rfl⟩ := exists_runs_of_tokenize made
  obtain ⟨fresh, same, joined⟩ := flatMap_fragments single runs (keeps_start text)
  obtain rfl : last.tokens = fresh := same
  exact joined 0 (Nat.le_refl _) _

private theorem groupOf_ne_error (token : Token) (others : List Token) :
    groupOf token others ≠ .error := by
  unfold groupOf
  grind

private theorem group_ne_error (text : Text) (reached : Nat) (tokens : List Token) :
    ∀ fragment ∈ fragments text reached tokens, fragment.group ≠ .error := by
  induction tokens generalizing reached with
  | nil =>
    intro fragment member
    rw [fragments] at member
    split at member <;> simp_all
  | cons token tokens hypothesis =>
    intro fragment member
    rw [fragments] at member
    split at member
    · exact hypothesis _ fragment member
    · dsimp only at member
      rcases List.mem_append.mp member with between | here
      · split at between <;> simp_all
      · rcases List.mem_cons.mp here with rfl | further
        · exact groupOf_ne_error token tokens
        · exact hypothesis _ fragment further

/-! Lines. -/

/-- A line without errors is highlighted at once: its fragments are the line, and none is shown as an error. -/
theorem exists_lineWithin_of_tokenize (single : CodePoint.ofChar '\n' ∉ text) (made : tokenize text = .ok tokens) :
    ∃ found, (∀ fuel, lineWithin (fuel + 1) text = .ok found) ∧ found.flatMap Fragment.text = text ∧
      ∀ fragment ∈ found, fragment.group ≠ .error := by
  by_cases empty : text = []
  · subst empty
    exact ⟨_, fun fuel => by rw [lineWithin, List.isEmpty_nil, if_pos rfl], rfl, by simp⟩
  have some_ : text.isEmpty = false := by simpa using empty
  have joined := flatMap_fragments_of_tokenize single made
  have groups := group_ne_error text 0 tokens
  refine ⟨fragments text 0 tokens, fun fuel => ?_, joined, groups⟩
  cases found : fragments text 0 tokens with
  | nil =>
    rw [found] at joined
    exact absurd joined.symm empty
  | cons first others => simp only [lineWithin, some_, Bool.false_eq_true, if_false, made, found]

theorem lineWithin_of_error {failure : Error} {position : Position} {clean : Nat} (fuel : Nat) (some_ : text ≠ [])
    (failed : tokenize text = .error failure) (told : failure.position? = some position)
    (column : position.column = (clean : Int) + 1) :
    lineWithin (fuel + 1) text = (if clean = 0 then pure [] else lineWithin fuel (text.take clean)).map
      (· ++ [⟨.error, text.drop clean⟩]) := by
  have some_ : text.isEmpty = false := by simpa using some_
  have reached : (position.column - 1).toNat = clean := by omega
  rw [lineWithin]
  simp only [some_, Bool.false_eq_true, if_false, failed, told, reached]
  split
  · rfl
  · cases lineWithin fuel (text.take clean) <;> rfl

/-- A line with an error is highlighted as the front before the column of the error, which has none, and the rest. -/
theorem exists_lineWithin_of_error {failure : Error} {position : Position} {clean : Nat}
    (single : CodePoint.ofChar '\n' ∉ text) (failed : tokenize text = .error failure)
    (told : failure.position? = some position) (column : position.column = (clean : Int) + 1)
    (inside : clean < text.length) (made : tokenize (text.take clean) = .ok tokens) :
    ∃ before, (∀ fuel, lineWithin (fuel + 2) text = .ok (before ++ [⟨.error, text.drop clean⟩])) ∧
      before.flatMap Fragment.text = text.take clean ∧ (clean = 0 → before = []) ∧
      (clean ≠ 0 → line (text.take clean) = .ok before) ∧ ∀ fragment ∈ before, fragment.group ≠ .error := by
  have some_ : text ≠ [] := List.ne_nil_of_length_pos (Nat.zero_lt_of_lt inside)
  by_cases atOnce : clean = 0
  · subst atOnce
    refine ⟨[], fun fuel => ?_, rfl, fun _ => rfl, fun other => absurd rfl other, List.forall_mem_nil _⟩
    rw [lineWithin_of_error _ some_ failed told column, if_pos rfl]
    rfl
  · obtain ⟨before, found, joined, groups⟩ :=
      exists_lineWithin_of_tokenize (fun member => single (List.mem_of_mem_take member)) made
    refine ⟨before, fun fuel => ?_, joined, fun other => absurd other atOnce, fun _ => found _, groups⟩
    rw [lineWithin_of_error _ some_ failed told column, if_neg atOnce, found]
    rfl

/-- Highlighting takes a line apart without altering it: the texts of the fragments, put together, are the line. Where
the line has an error, the front before its column has none and is highlighted by itself, so at most two rounds are
needed, and the rest of the line is the last fragment, shown as an error. -/
theorem line_keeps_text (text : Text) (single : CodePoint.ofChar '\n' ∉ text) (short : ¬ Text.HasLongNumeral text) :
    ∃ found, line text = .ok found ∧ (∀ fuel, lineWithin (fuel + 2) text = .ok found) ∧
      found.flatMap Fragment.text = text ∧
      match tokenize text with
      | .ok _ => ∀ fragment ∈ found, fragment.group ≠ .error
      | .error failure => ∃ (position : Position) (clean : Nat) (before : List Fragment),
          failure.position? = some position ∧ position.column = (clean : Int) + 1 ∧ clean < text.length ∧
          (∃ tokens, tokenize (text.take clean) = .ok tokens) ∧
          (clean = 0 → before = []) ∧ (clean ≠ 0 → line (text.take clean) = .ok before) ∧
          (∀ fragment ∈ before, fragment.group ≠ .error) ∧ found = before ++ [⟨.error, text.drop clean⟩] := by
  split
  · next tokens made =>
    obtain ⟨found, whole, joined, groups⟩ := exists_lineWithin_of_tokenize single made
    exact ⟨found, whole _, fun fuel => whole _, joined, groups⟩
  · next failure failed =>
    obtain ⟨clean, inside, told, tokens, made⟩ := exists_clean_of_error failed short
    have column : (Position.behind (text.take clean)).column = (clean : Int) + 1 := by
      rw [Position.behind_of_line fun member => single (List.mem_of_mem_take member),
        List.length_take_of_le inside.le]
      exact add_comm _ _
    obtain ⟨before, whole, joined, none_, front, groups⟩ :=
      exists_lineWithin_of_error single failed told column inside made
    refine ⟨before ++ [⟨.error, text.drop clean⟩], ?_, whole, ?_, _, clean, before, told, column, inside,
      ⟨tokens, made⟩, none_, front, groups, rfl⟩
    · obtain ⟨fuel, enough⟩ : ∃ fuel, text.length = fuel + 1 := Nat.exists_eq_add_one.mpr (Nat.zero_lt_of_lt inside)
      rw [line, enough]
      exact whole fuel
    · rw [List.flatMap_append, joined, List.flatMap_singleton]
      exact List.take_append_drop clean text

/-- An escape that lacks digits, inside a string behind other tokens. -/
theorem line_with_bad_escape :
    let text := Text.of "f(1, \"a\\u00g\")"
    CodePoint.ofChar '\n' ∉ text ∧ ¬ Text.HasLongNumeral text ∧
      ∃ before, line text = .ok (before ++ [⟨.error, Text.of "\\u00g\")"⟩]) ∧
        line (Text.of "f(1, \"a") = .ok before ∧ ∀ fragment ∈ before, fragment.group ≠ .error := by
  intro text
  have single : CodePoint.ofChar '\n' ∉ text := by decide
  have short : ¬ Text.HasLongNumeral text := Text.not_hasLongNumeral (by decide)
  have failed : tokenize text = .error (.invalidEscape ⟨1, 8⟩) := by decide +kernel
  have front : text.take 7 = Text.of "f(1, \"a" := by decide
  have behind : text.drop 7 = Text.of "\\u00g\")" := by decide
  have highlighted := line_keeps_text text single short
  rw [failed] at highlighted
  obtain ⟨_, whole, _, _, position, clean, before, told, column, _, _, _, again, groups, rfl⟩ := highlighted
  cases told
  obtain rfl : clean = 7 := by
    dsimp only at column
    omega
  rw [behind] at whole
  rw [front] at again
  exact ⟨single, short, before, whole, again (by decide), groups⟩

end Highlight

end GuardedExpr

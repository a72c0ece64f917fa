import GuardedExpr.Proofs.Token.SourceDivision

/-!
The places of the tokens of a source: each token stands behind those before it, so a place tells which token is meant.
-/

namespace GuardedExpr

def Position.IsBefore (place other : Position) : Prop :=
  place.line < other.line ∨ place.line = other.line ∧ place.column < other.column

namespace Position

variable {place middle other : Position}

theorem IsBefore.trans (first : place.IsBefore middle) (second : middle.IsBefore other) : place.IsBefore other := by
  unfold IsBefore at *
  omega

theorem IsBefore.ne (before : place.IsBefore other) : place ≠ other := by
  rintro rfl
  unfold IsBefore at before
  omega

end Position

namespace Scanner

variable {s : Scanner} {lexeme : Text}

theorem isBefore_step (s : Scanner) (c : CodePoint) : s.position.IsBefore (s.step c).position := by
  unfold step Position.IsBefore position
  split <;> dsimp only <;> omega

theorem position_passing (s : Scanner) (lexeme : Text) :
    (s.passing lexeme).position = (lexeme.foldl step s).position :=
  rfl

theorem isBefore_passing (some_ : lexeme ≠ []) : s.position.IsBefore (s.passing lexeme).position := by
  rw [position_passing]
  induction lexeme generalizing s with
  | nil => exact absurd rfl some_
  | cons c rest hypothesis =>
    rw [List.foldl_cons]
    cases rest with
    | nil => exact isBefore_step s c
    | cons d rest => exact (isBefore_step s c).trans (hypothesis (List.cons_ne_nil _ _))

/-- A mark stands where it was read, since it is no end of a line. -/
theorem emit_mark (s : Scanner) {kind : TokenKind} {c : CodePoint} (mark : kind.mark? = some c) :
    (s.passing [c]).emit kind [c] = (s.passing [c]).add ⟨kind, [c], .null, s.position⟩ := by
  have step_ : s.step c = { s with column := s.column + 1 } := by cases kind <;> cases mark <;> rfl
  have place : (⟨(s.passing [c]).line, ((s.passing [c]).column : Int) - 1⟩ : Position) = s.position := by
    change (⟨(s.step c).line, ((s.step c).column : Int) - 1⟩ : Position) = s.position
    rw [step_]
    dsimp only [position]
    congr 1
    omega
  exact congrArg (fun position => (s.passing [c]).add ⟨kind, [c], .null, position⟩) place

structure Ordered (s : Scanner) : Prop where
  apart : s.produced.Pairwise fun later earlier => earlier.position.IsBefore later.position
  passed : ∀ token ∈ s.produced, token.position.IsBefore s.position

private theorem ordered_start (source : Text) : (start source).Ordered :=
  ⟨.nil, List.forall_mem_nil _⟩

section

variable (ordered : s.Ordered)
include ordered

theorem Ordered.passing (lexeme : Text) : (s.passing lexeme).Ordered := by
  have same : (s.passing lexeme).produced = s.produced := produced_foldl_step s lexeme
  constructor
  · rw [same]
    exact ordered.apart
  · rw [same]
    intro token made
    have before := ordered.passed token made
    by_cases some_ : lexeme = []
    · subst some_
      exact before
    · exact before.trans (isBefore_passing some_)

/-- A token that begins at the place reached, and with what it was read from behind it. -/
theorem Ordered.add {token : Token} (some_ : lexeme ≠ []) (begins : token.position = s.position) :
    ((s.passing lexeme).add token).Ordered := by
  have same : (s.passing lexeme).produced = s.produced := produced_foldl_step s lexeme
  have moved : token.position.IsBefore (s.passing lexeme).position := by
    rw [begins]
    exact isBefore_passing some_
  refine ⟨List.pairwise_cons.mpr ⟨fun earlier made => ?_, (ordered.passing lexeme).apart⟩,
    List.forall_mem_cons.mpr ⟨moved, (ordered.passing lexeme).passed⟩⟩
  rw [same] at made
  rw [begins]
  exact ordered.passed earlier made

theorem ordered_numeral (some_ : lexeme ≠ []) : (s.numeral lexeme).1.Ordered := by
  rw [numeral]
  split
  · exact ordered.add some_ rfl
  · exact ordered.passing lexeme

private theorem ordered_number (starts : startsNumber s.rest) : s.number.1.Ordered := by
  have some_ : s.rest.takeWhile CodePoint.isDigitOrPoint ≠ [] := by
    intro none_
    have front := Lexeme.startsNumber_takeWhile starts
    rw [none_] at front
    cases front
  rw [number]
  split
  · exact ordered_numeral ordered some_
  · exact ordered_numeral ordered (List.append_ne_nil_of_left_ne_nil some_ _)
  · exact ordered.passing _

private theorem ordered_string : s.string.1.Ordered := by
  rw [string]
  split
  · have moved := ordered.passing (s.rest.take 1)
    exact ⟨moved.apart, moved.passed⟩
  · dsimp only
    split
    · exact ordered.add (List.cons_ne_nil _ _) rfl
    · exact ordered.passing _
    · exact (ordered.passing _).passing _

private theorem ordered_mark {kind : TokenKind} {c : CodePoint} (mark : kind.mark? = some c) :
    ((s.passing [c]).emit kind [c]).Ordered := by
  rw [emit_mark s mark]
  exact ordered.add (List.cons_ne_nil _ _) rfl

private theorem ordered_name {c : CodePoint} {more : Text} (front : s.rest = c :: more)
    (starts : c.startsName) :
    s.name.Ordered := by
  refine ordered.add ?_ rfl
  rw [front, List.takeWhile_cons_of_pos (by simp [CodePoint.continuesName, starts])]
  exact List.cons_ne_nil _ _

private theorem ordered_scan : s.scan.1.Ordered := by
  rw [scan]
  split
  · exact ordered
  · next c more front =>
    split
    · next starts => exact ordered_number ordered starts
    split
    · exact ordered_string ordered
    split
    · next kind mark => exact ordered_mark ordered (TokenKind.ofMark?_eq_some_iff.mp mark)
    split
    · next starts => exact ordered_name ordered front starts
    split
    · exact ordered.passing _
    · exact ordered

private theorem ordered_scanAll (rounds : Nat) : (scanAll rounds s).1.Ordered := by
  induction rounds generalizing s with
  | zero => exact ordered
  | succ rounds hypothesis =>
    have next := ordered_scan ordered
    rw [scanAll]
    split
    · revert next
      rcases s.scan with ⟨last, _ | failure⟩
      · exact fun next => hypothesis next
      · exact fun next => next
    · exact ordered

end

end Scanner

private theorem pairwise_of_tokenize {source : Text} {tokens : List Token}
    (made : tokenize source = .ok tokens) :
    tokens.Pairwise fun earlier later => earlier.position.IsBefore later.position := by
  have ordered := Scanner.ordered_scanAll (Scanner.ordered_start source) source.length
  rw [tokenize, Scanner.finish_start] at made
  rcases scanned : Scanner.scanAll source.length (Scanner.start source) with ⟨last, _ | failure⟩
  · rw [scanned] at ordered made
    cases made
    exact List.pairwise_reverse.mpr (List.pairwise_cons.mpr ⟨ordered.passed, ordered.apart⟩)
  · rw [scanned] at made
    cases made

private theorem Token.position_remark (shift : Nat) (token : Token) :
    (token.remark shift).position = token.position := by
  unfold remark
  split <;> rfl

theorem ne_position_of_tokenize {source : Text} {tokens before after : List Token} {token : Token} (marks : Nat)
    (made : tokenize source = .ok tokens) (split : tokens.map (Token.remark marks) = before ++ token :: after) :
    ∀ other ∈ before ++ after, other.position ≠ token.position := by
  have ordered : (before ++ token :: after).Pairwise fun earlier later =>
      earlier.position.IsBefore later.position := by
    rw [← split, List.pairwise_map]
    exact (pairwise_of_tokenize made).imp fun earlier => by simpa only [Token.position_remark] using earlier
  obtain ⟨_, behind, across⟩ := List.pairwise_append.mp ordered
  intro other member
  rcases List.mem_append.mp member with inside | inside
  · exact (across other inside token List.mem_cons_self).ne
  · exact ((List.pairwise_cons.mp behind).1 other inside).ne.symm

end GuardedExpr

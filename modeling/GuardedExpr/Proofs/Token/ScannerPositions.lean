import GuardedExpr.Proofs.Token.ScanSteps

/-!
The place that a scanner keeps is the place where it is: the line and the column that are moved on with each character
are those that the text in front of it tells. So the places of tokens and of failures are those of what they are
about.
-/

namespace GuardedExpr

open Lexeme

/-- The place behind a text: one line more than it has line feeds, and one column more than there are characters
behind the last of them. -/
def Position.behind (before : Text) : Position :=
  ⟨1 + before.count (CodePoint.ofChar '\n'), 1 + (before.reverse.takeWhile (· ≠ CodePoint.ofChar '\n')).length⟩

def Token.StandsIn (source : Text) (earlier : List Token) (token : Token) : Prop :=
  ∃ before more, source = before ++ (token.text ++ more) ∧ Divided source earlier (token.text ++ more) ∧
    token.position = .behind before

/-- A failure that tells a place tells that of the character that begins nothing, of the first character of the number,
or of the backslash of the escape that lacks digits. -/
def Error.StandsAt (failure : Error) (before left : Text) : Prop :=
  match failure with
  | .unexpectedCharacter c position => left.head? = some c ∧ position = .behind before
  | .invalidExponent position => position = .behind before
  | .invalidEscape position => ∃ quote, IsQuote quote ∧ ∃ (pieces : List (Piece quote)) (rest : Text),
      left = quote :: (Piece.spellings pieces ++ CodePoint.ofChar '\\' :: CodePoint.ofChar 'u' :: rest) ∧
      ¬ BeginsWithHex rest ∧ position = .behind (before ++ quote :: Piece.spellings pieces)
  | _ => failure.position? = none

namespace Scanner

variable {source before lexeme more : Text} {s last : Scanner} {token : Token} {failure : Error}

private theorem position_step {c : CodePoint} (here : s.position = .behind before) :
    (s.step c).position = .behind (before ++ [c]) := by
  obtain ⟨line, column⟩ := Position.mk.inj here
  by_cases feed : c = '\n'
  · subst feed
    simp [step, position, Position.behind, line]
    omega
  · simp [step, position, Position.behind, line, feed, column]
    omega

theorem position_passing_behind (here : s.position = .behind before) (lexeme : Text) :
    (s.passing lexeme).position = .behind (before ++ lexeme) := by
  rw [position_passing]
  induction lexeme generalizing s before with
  | nil => rw [List.append_nil]; exact here
  | cons c rest hypothesis =>
    rw [List.foldl_cons, hypothesis (position_step here), List.append_assoc]
    rfl

structure Keeps (source : Text) (s : Scanner) : Prop where
  same : s.source = source
  place : s.position = .behind (source.take s.offset)

theorem keeps_start (source : Text) : Keeps source (start source) :=
  ⟨rfl, rfl⟩

theorem Keeps.source_eq (keeps : Keeps source s) : source = source.take s.offset ++ s.rest := by
  rw [rest, keeps.same, List.take_append_drop]

section

variable (keeps : Keeps source s)
include keeps

theorem Keeps.take_passing (front : s.rest = lexeme ++ more) :
    source.take (s.passing lexeme).offset = source.take s.offset ++ lexeme := by
  have ahead : source.drop s.offset = lexeme ++ more := by
    rw [← front, rest, keeps.same]
  rw [offset_passing, List.take_add, ahead, List.take_left]

theorem Keeps.passing (front : s.rest = lexeme ++ more) : Keeps source (s.passing lexeme) := by
  refine ⟨(source_passing s lexeme).trans keeps.same, ?_⟩
  rw [keeps.take_passing front]
  exact position_passing_behind keeps.place lexeme

theorem Keeps.offset_lt (some_ : s.rest ≠ []) : s.offset < source.length := by
  rw [← keeps.same]
  exact (offset_lt_iff s).mpr some_

theorem Keeps.skip (count : Nat) : Keeps source (s.skip count) := by
  refine ⟨(source_passing s _).trans keeps.same, ?_⟩
  change (s.passing (s.rest.take count)).position = .behind (source.take (s.offset + count))
  rw [List.take_add, ← keeps.same]
  exact position_passing_behind (keeps.same ▸ keeps.place) _

theorem keeps_of_scans {result : Result} (scans : s.Scans result) : Keeps source result.1 := by
  cases scans with
  | skipped _ front | failed _ front => exact keeps.passing front
  | made _ front =>
    have moved := keeps.passing front
    exact ⟨moved.same, moved.place⟩

/-- A string may be read at any character, which is then the one that ends it. -/
theorem keeps_string : Keeps source s.string.1 := by
  rw [string]
  split
  · exact keeps.skip 1
  · next quote behind front =>
    have fits := fits_body quote behind
    split
    · next lexeme value read =>
      rw [read] at fits
      obtain ⟨_, rest, _, _, rfl⟩ := fits
      have whole : s.rest = quote :: lexeme ++ rest := front
      have moved := keeps.passing whole
      exact ⟨moved.same, moved.place⟩
    · rw [← front]
      exact keeps.passing (List.append_nil _).symm
    · next inside read =>
      rw [read] at fits
      obtain ⟨_, rest, rfl, _⟩ := fits
      have first : s.rest = quote :: inside ++ CodePoint.ofChar '\\' :: CodePoint.ofChar 'u' :: rest := front
      have second : (s.passing (quote :: inside)).rest = [CodePoint.ofChar '\\'] ++ CodePoint.ofChar 'u' :: rest :=
        rest_passing first
      exact (keeps.passing first).passing second

theorem keeps_scan : Keeps source s.scan.1 := by
  by_cases end_ : s.rest = []
  · rw [scan, end_]
    exact keeps
  · exact keeps_of_scans keeps (scans_scan end_)

private theorem keeps_scanAll (rounds : Nat) : Keeps source (scanAll rounds s).1 := by
  induction rounds generalizing s with
  | zero => exact keeps
  | succ rounds hypothesis =>
    have next := keeps_scan keeps
    rw [scanAll]
    split
    · revert next
      rcases s.scan with ⟨last, _ | failure⟩
      · exact fun next => hypothesis next
      · exact fun next => next
    · exact keeps

private theorem keeps_finish : Keeps source s.finish.1 := by
  have last := keeps_scanAll keeps (s.source.length - s.offset)
  rw [finish]
  revert last
  rcases scanAll (s.source.length - s.offset) s with ⟨last, _ | failure⟩ <;>
    exact fun last => ⟨last.same, last.place⟩

end

theorem Runs.keeps (runs : s.Runs last) (keeps : Keeps source s) : Keeps source last := by
  induction runs with
  | refl => exact keeps
  | tail _ moves hypothesis =>
    have next := keeps_scan hypothesis
    rw [moves.2] at next
    exact next

/-! Calls. -/

inductive Call where
  | peek (distance : Int)
  | advance (count : Int)
  | scan
  | number
  | string
  | name
  | emit (kind : TokenKind) (text : Text)
  | finish

/-- The scanner after a call, whether it fails or not. A look ahead leaves it as it is, and so does a step back, which
is refused. -/
def Call.after (s : Scanner) : Call → Scanner
  | peek _ => s
  | advance count =>
    match s.advance count with
    | .ok (_, next) => next
    | .error _ => s
  | scan => s.scan.1
  | number => s.number.1
  | string => s.string.1
  | name => s.name
  | emit kind text => s.emit kind text
  | finish => s.finish.1

def afterCalls (source : Text) (calls : List Call) : Scanner :=
  calls.foldl Call.after (start source)

private theorem Call.keeps_after (keeps : Keeps source s) (call : Call) :
    Keeps source (call.after s) := by
  cases call with
  | peek => exact keeps
  | emit => exact ⟨keeps.same, keeps.place⟩
  | advance count =>
    rw [after, Scanner.advance]
    by_cases back : count < 0
    · rw [if_pos back]
      exact keeps
    · rw [if_neg back]
      exact keeps.skip _
  | scan => exact keeps_scan keeps
  | number => exact keeps_of_scans keeps scans_number
  | string => exact keeps_string keeps
  | name => exact keeps_of_scans keeps scans_name
  | finish => exact keeps_finish keeps

private theorem keeps_afterCalls (source : Text) (calls : List Call) :
    Keeps source (afterCalls source calls) := by
  suffices any : ∀ s, Keeps source s → Keeps source (calls.foldl Call.after s) from any _ (keeps_start source)
  induction calls with
  | nil => exact fun s keeps => keeps
  | cons call calls hypothesis => exact fun s keeps => hypothesis _ (call.keeps_after keeps)

/-! Tokens and failures. -/

theorem Runs.standsIn {earlier later : List Token} (runs : (start source).Runs last)
    (made : last.tokens = earlier ++ token :: later) : token.StandsIn source earlier := by
  have whole : last.tokens = (start source).tokens ++ (earlier ++ token :: later) := made
  obtain ⟨maker, reached, some_, before, makes⟩ := runs.exists_makes whole
  obtain ⟨more, front⟩ := makes.front
  obtain ⟨tokens, same, divided⟩ := reached.divided some_
  have keeps := reached.keeps (keeps_start source)
  obtain rfl : tokens = earlier := same.symm.trans before
  rw [front] at divided
  exact ⟨source.take maker.offset, more, front ▸ keeps.source_eq, divided, makes.begins.trans keeps.place⟩

private theorem Blames.standsAt (blames : s.Blames failure) (offends : failure.Offends s.rest)
    (keeps : Keeps source s) :
    failure.StandsAt (source.take s.offset) s.rest := by
  unfold Blames at blames
  split at blames
  · obtain ⟨rest, front, _⟩ := offends
    exact ⟨by rw [front]; rfl, blames.trans keeps.place⟩
  · exact blames.trans keeps.place
  · obtain ⟨quote, quotes, pieces, rest, front, lacks, place⟩ := blames
    exact ⟨quote, quotes, pieces, rest, front, lacks, place.trans (position_passing_behind keeps.place _)⟩
  · rfl
  · exact blames.elim

theorem standsAt_of_fails {after : Scanner} (keeps : Keeps source s) (some_ : s.rest ≠ [])
    (fails : s.scan = (after, some failure)) :
    after.tokens = s.tokens ∧ failure.Offends s.rest ∧ failure.StandsAt (source.take s.offset) s.rest := by
  have scans := scans_scan some_
  have reads := reads_scan some_
  rw [fails] at scans reads
  cases reads with
  | failed offends same =>
    cases scans with
    | failed _ _ blames => exact ⟨same, offends, blames.standsAt offends keeps⟩

end Scanner

/-- A scanner knows its place. After calls of any kind in any order, those that fail among them, the place that it
keeps is the one behind what it has read. So all tokens of a source stand at their first characters, the last one at
the end of the source, and where scanning fails, the tokens made so far do too, and the failure is reported where what
it is about stands. -/
theorem tokens_keep_their_places (source : Text) :
    (∀ calls, let s := Scanner.afterCalls source calls
      s.source = source ∧ s.position = .behind (source.take s.offset)) ∧
    match tokenize source with
    | .ok tokens => ∃ body last, tokens = body ++ [last] ∧ last.kind = .endOfInput ∧
        last.position = .behind source ∧
        ∀ earlier token later, body = earlier ++ token :: later → token.StandsIn source earlier
    | .error failure => ∃ last before left, (Scanner.start source).finish = (last, some failure) ∧
        source = before ++ left ∧ Divided source last.tokens left ∧
        failure.Offends left ∧ failure.StandsAt before left ∧
        ∀ earlier token later, last.tokens = earlier ++ token :: later → token.StandsIn source earlier := by
  constructor
  · intro calls
    have keeps := Scanner.keeps_afterCalls source calls
    exact ⟨keeps.same, keeps.place⟩
  split
  · next tokens made =>
    obtain ⟨last, runs, end_, rfl⟩ := exists_runs_of_tokenize made
    have keeps := runs.keeps (Scanner.keeps_start source)
    have whole : source.take last.offset = source := by
      have all := keeps.source_eq
      rw [end_, List.append_nil] at all
      exact all.symm
    refine ⟨last.tokens, _, rfl, rfl, ?_, fun earlier token later => runs.standsIn⟩
    rw [← whole]
    exact whole.symm ▸ keeps.place
  · next failure failed =>
    obtain ⟨last, after, runs, some_, fails, finished⟩ := exists_runs_of_error failed
    have keeps := runs.keeps (Scanner.keeps_start source)
    obtain ⟨same, offends, stands⟩ := Scanner.standsAt_of_fails keeps some_ fails
    obtain ⟨tokens, made, divided⟩ := runs.divided some_
    refine ⟨after, _, last.rest, finished, keeps.source_eq, ?_, offends, stands, ?_⟩
    · obtain rfl : last.tokens = tokens := made
      rw [same]
      exact divided
    · rw [same]
      exact fun earlier token later => runs.standsIn

end GuardedExpr

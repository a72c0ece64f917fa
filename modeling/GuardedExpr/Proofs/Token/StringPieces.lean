import GuardedExpr.Proofs.Token.TokenShapes
import Mathlib.Data.List.Induction
import Mathlib.Data.Nat.Digits.Defs

/-!
The pieces that a string is written with between its quotes: characters as they are, characters behind a backslash, and
characters told by a number. Each piece stands for one character. A string is read piece by piece, and so it ends at
the first quote that is no part of a piece, or where the text does, or at a number that lacks digits.
-/

namespace GuardedExpr

namespace Numeral

def ofHexDigits (digits : Text) : Nat :=
  Nat.ofDigits 16 (digits.reverse.map fun d => d.hexValue?.getD 0)

theorem ofHexDigits_concat (digits : Text) (d : CodePoint) :
    ofHexDigits (digits ++ [d]) = 16 * ofHexDigits digits + d.hexValue?.getD 0 := by
  simp only [ofHexDigits, List.reverse_append, List.reverse_singleton, List.singleton_append, List.map_cons,
    Nat.ofDigits_cons]
  omega

private theorem ofHex?_of_isHex {digits : Text} (hex : ∀ d ∈ digits, d.isHex) :
    ofHex? digits = some (ofHexDigits digits) := by
  induction digits using List.reverseRecOn with
  | nil => rfl
  | append_singleton digits d hypothesis =>
    have before : ofHex? digits = some (ofHexDigits digits) :=
      hypothesis fun e member => hex e (List.mem_append_left _ member)
    obtain ⟨value, found⟩ : ∃ value, d.hexValue? = some value := Option.isSome_iff_exists.mp (hex d (by simp))
    rw [ofHexDigits_concat, found]
    unfold ofHex? at before ⊢
    rw [List.foldl_append, before, List.foldl_cons, found]
    rfl

end Numeral

namespace CodePoint

private theorem hexValue?_getD_lt (c : CodePoint) : c.hexValue?.getD 0 < 16 := by
  simp only [hexValue?, isDigit, within, Char.reduceToNat]
  grind

end CodePoint

theorem Numeral.ofHexDigits_lt (digits : Text) : ofHexDigits digits < 16 ^ digits.length := by
  have bounded : ∀ value ∈ digits.reverse.map fun d : CodePoint => d.hexValue?.getD 0, value < 16 := by
    intro value member
    obtain ⟨d, _, rfl⟩ := List.mem_map.mp member
    exact d.hexValue?_getD_lt
  simpa [ofHexDigits] using Nat.ofDigits_lt_base_pow_length (by decide : 1 < 16) bounded

def controls : List (CodePoint × CodePoint) :=
  [('n', 0x0A), ('f', 0x0C), ('r', 0x0D), ('t', 0x09), ('v', 0x0B)]

/-- One piece of what stands between two quotes: a character that neither ends the string nor begins an escape, a
backslash with any character but the letter u behind it, or one with that letter and four hexadecimal digits. -/
inductive Piece (quote : CodePoint) where
  | plain (c : CodePoint) (unescaped : c ≠ '\\') (open_ : c ≠ quote)
  | escaped (c : CodePoint) (unnumbered : c ≠ 'u')
  | numbered (digits : Text) (four : digits.length = 4) (hex : ∀ d ∈ digits, d.isHex)

namespace Piece

open Lexeme

variable {quote : CodePoint} {rest : Text}

def spelling : Piece quote → Text
  | plain c _ _ => [c]
  | escaped c _ => [CodePoint.ofChar '\\', c]
  | numbered digits _ _ => CodePoint.ofChar '\\' :: CodePoint.ofChar 'u' :: digits

/-- The character that a piece stands for. Behind a backslash a character stands for itself, unless it is the letter of
a control character. -/
def meaning : Piece quote → CodePoint
  | plain c _ _ => c
  | escaped c _ => (controls.lookup c).getD c
  | numbered digits four _ =>
    ⟨Numeral.ofHexDigits digits, (Numeral.ofHexDigits_lt digits).trans (by rw [four]; decide)⟩

def spellings (pieces : List (Piece quote)) : Text :=
  pieces.flatMap spelling

def meanings (pieces : List (Piece quote)) : Text :=
  pieces.map meaning

def literal (pieces : List (Piece quote)) : Text :=
  quote :: (spellings pieces ++ [quote])

theorem spellings_cons (piece : Piece quote) (pieces : List (Piece quote)) :
    spellings (piece :: pieces) = piece.spelling ++ spellings pieces :=
  List.flatMap_cons

private theorem inside_spellings (pieces : List (Piece quote)) :
    Inside quote (spellings pieces) := by
  induction pieces with
  | nil => exact .nil
  | cons piece pieces hypothesis =>
    rw [spellings_cons]
    cases piece with
    | plain c unescaped open_ => exact .plain unescaped open_ hypothesis
    | escaped c unnumbered => exact .escaped unnumbered hypothesis
    | numbered digits four hex => exact .numbered four hex hypothesis

theorem inside_iff {inside : Text} : Inside quote inside ↔ ∃ pieces : List (Piece quote), spellings pieces = inside := by
  constructor
  · intro shape
    induction shape with
    | nil => exact ⟨[], rfl⟩
    | plain unescaped open_ _ hypothesis =>
      obtain ⟨pieces, rfl⟩ := hypothesis
      exact ⟨plain _ unescaped open_ :: pieces, rfl⟩
    | escaped unnumbered _ hypothesis =>
      obtain ⟨pieces, rfl⟩ := hypothesis
      exact ⟨escaped _ unnumbered :: pieces, rfl⟩
    | numbered four hex _ hypothesis =>
      obtain ⟨pieces, rfl⟩ := hypothesis
      exact ⟨numbered _ four hex :: pieces, spellings_cons _ _⟩
  · rintro ⟨pieces, rfl⟩
    exact inside_spellings pieces

/-! Strings are read by pieces. -/

private theorem unescaped_eq (c : CodePoint) : unescaped c = (controls.lookup c).getD c := by
  by_cases control : c ∈ controls.map Prod.fst
  · simp only [controls, List.map_cons, List.map_nil, List.mem_cons, List.not_mem_nil, or_false] at control
    rcases control with rfl | rfl | rfl | rfl | rfl <;> rfl
  · have none_ : controls.lookup c = none := by
      rw [List.lookup_eq_none_iff]
      intro entry member
      simpa using fun same => control (List.mem_map.mpr ⟨entry, member, same.symm⟩)
    simp only [controls, List.map_cons, List.map_nil, List.mem_cons, List.not_mem_nil, or_false, not_or] at control
    obtain ⟨n, f, r, t, v⟩ := control
    simp only [none_, unescaped, if_neg n, if_neg f, if_neg r, if_neg t, if_neg v, Option.getD_none]

private theorem numbered?_eq {digits : Text} (four : digits.length = 4)
    (hex : ∀ d ∈ digits, d.isHex) :
    numbered? digits = some (numbered digits four hex : Piece quote).meaning := by
  have bound : Numeral.ofHexDigits digits < 0x110000 :=
    (Numeral.ofHexDigits_lt digits).trans (by rw [four]; decide)
  rw [numbered?, Numeral.ofHex?_of_isHex hex, Option.map_some, CodePoint.ofNat, dif_pos bound]
  rfl

private theorem after_after (lexeme value more further : Text) (read : Body) :
    (read.after more further).after lexeme value = read.after (lexeme ++ more) (value ++ further) := by
  cases read <;> simp [Body.after]

private theorem after_nil (read : Body) : read.after [] [] = read := by
  cases read <;> rfl

private theorem body_spelling (piece : Piece quote) (rest : Text) :
    body quote (piece.spelling ++ rest) = (body quote rest).after piece.spelling [piece.meaning] := by
  cases piece with
  | plain c unescaped open_ => exact body_plain unescaped open_ rest
  | escaped c unnumbered =>
    have same : [Lexeme.unescaped c] = [(escaped c unnumbered : Piece quote).meaning] :=
      congrArg ([·]) (unescaped_eq c)
    rw [← same]
    exact body_escaped unnumbered rest
  | numbered digits four hex =>
    have found : numbered? digits = some (numbered digits four hex : Piece quote).meaning := numbered?_eq four hex
    match digits, four with
    | [d₁, d₂, d₃, d₄], _ => simp only [spelling, List.cons_append, List.nil_append, body, if_pos, found]

theorem body_spellings (pieces : List (Piece quote)) (rest : Text) :
    body quote (spellings pieces ++ rest) = (body quote rest).after (spellings pieces) (meanings pieces) := by
  induction pieces with
  | nil => exact (after_nil _).symm
  | cons piece pieces hypothesis =>
    rw [spellings_cons, List.append_assoc, body_spelling, hypothesis, after_after]
    rfl

private theorem ne_backslash_of_isQuote (quotes : IsQuote quote) : quote ≠ '\\' := by
  rcases quotes with rfl | rfl <;> decide

theorem body_closed (quotes : IsQuote quote) (pieces : List (Piece quote)) (rest : Text) :
    body quote (spellings pieces ++ quote :: rest) = .closed (spellings pieces ++ [quote]) (meanings pieces) := by
  rw [body_spellings, body_quote (ne_backslash_of_isQuote quotes)]
  simp [Body.after]

theorem body_unterminated (pieces : List (Piece quote)) {last : Text} (ends : last = [] ∨ last = Text.of "\\") :
    body quote (spellings pieces ++ last) = .unterminated := by
  rw [body_spellings]
  rcases ends with rfl | rfl <;> rfl

theorem body_badEscape (pieces : List (Piece quote)) (lacks : ¬ BeginsWithHex rest) :
    body quote (spellings pieces ++ CodePoint.ofChar '\\' :: CodePoint.ofChar 'u' :: rest) =
      .badEscape (spellings pieces) := by
  have stuck : body quote (CodePoint.ofChar '\\' :: CodePoint.ofChar 'u' :: rest) = .badEscape [] := by
    match rest with
    | [] | [_] | [_, _] | [_, _, _] => simp [body]
    | d₁ :: d₂ :: d₃ :: d₄ :: rest =>
      have none_ : numbered? [d₁, d₂, d₃, d₄] = none := by
        refine Option.not_isSome_iff_eq_none.mp fun found => lacks ⟨rfl, ?_⟩
        rw [isSome_numbered?] at found
        exact List.all_eq_true.mp found
      simp [body, none_]
  rw [body_spellings, stuck]
  exact congrArg Body.badEscape (List.append_nil _)

/-- What stands behind an opening quote: pieces up to the closing quote, or up to the end, or up to a number that lacks
digits. -/
inductive Ending (quote : CodePoint) : Text → Prop where
  | closed (pieces : List (Piece quote)) (rest : Text) : Ending quote (spellings pieces ++ quote :: rest)
  | unterminated (pieces : List (Piece quote)) {last : Text} (ends : last = [] ∨ last = Text.of "\\") :
      Ending quote (spellings pieces ++ last)
  | badEscape (pieces : List (Piece quote)) {rest : Text} (lacks : ¬ BeginsWithHex rest) :
      Ending quote (spellings pieces ++ CodePoint.ofChar '\\' :: CodePoint.ofChar 'u' :: rest)

theorem ending (quote : CodePoint) (behind : Text) : Ending quote behind := by
  have fits := fits_body quote behind
  cases read : body quote behind with
  | closed lexeme value =>
    rw [read] at fits
    obtain ⟨inside, rest, shape, rfl, rfl⟩ := fits
    obtain ⟨pieces, rfl⟩ := inside_iff.mp shape
    rw [List.append_assoc]
    exact .closed pieces rest
  | unterminated =>
    rw [read] at fits
    obtain ⟨inside, last, shape, rfl, ends⟩ := fits
    obtain ⟨pieces, rfl⟩ := inside_iff.mp shape
    exact .unterminated pieces ends
  | badEscape before =>
    rw [read] at fits
    obtain ⟨shape, rest, rfl, lacks⟩ := fits
    obtain ⟨pieces, rfl⟩ := inside_iff.mp shape
    exact .badEscape pieces lacks

end Piece

end GuardedExpr

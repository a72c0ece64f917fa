import GuardedExpr.Code.Listing
import GuardedExpr.Proofs.Token.ScannerPositions
import GuardedExpr.Proofs.Token.StringDecoding

/-!
Escaped text is harmless and loses nothing. It holds letters, digits, spaces and numbers behind backslashes only, no
two texts have the same one, and the scanner reads it as the text again where four digits suffice for each character.
-/

namespace GuardedExpr

open Lexeme

namespace Numeral

theorem hexValue?_digitChar : ∀ d < 16, (CodePoint.ofChar (Nat.digitChar d)).hexValue? = some d := by
  decide

theorem ofHexDigits_toDigits (n : Nat) :
    (∀ d ∈ (Nat.toDigits 16 n).map CodePoint.ofChar, d.isHex) ∧
      ofHexDigits ((Nat.toDigits 16 n).map CodePoint.ofChar) = n := by
  induction n using Nat.strongRecOn with
  | ind n hypothesis =>
    by_cases small : n < 16
    · have value := hexValue?_digitChar n small
      rw [Nat.toDigits_of_lt_base small]
      refine ⟨fun d member => ?_, ?_⟩
      · rw [List.mem_singleton.mp member, CodePoint.isHex, value]
        rfl
      · change ofHexDigits ([] ++ [CodePoint.ofChar (Nat.digitChar n)]) = n
        rw [ofHexDigits_concat, value]
        exact Nat.zero_add n
    · obtain ⟨hex, spells⟩ := hypothesis (n / 16) (by omega)
      have value := hexValue?_digitChar (n % 16) (Nat.mod_lt n (by decide))
      rw [Nat.toDigits_of_base_le (by decide) (Nat.le_of_not_lt small), List.map_append, List.map_singleton]
      refine ⟨fun d member => ?_, ?_⟩
      · rcases List.mem_append.mp member with front | last
        · exact hex d front
        · rw [List.mem_singleton.mp last, CodePoint.isHex, value]
          rfl
      · rw [ofHexDigits_concat, spells, value]
        exact Nat.div_add_mod n 16

private theorem ofHexDigits_zeros (count : Nat) (digits : Text) :
    ofHexDigits (List.replicate count (CodePoint.ofChar '0') ++ digits) = ofHexDigits digits := by
  induction count with
  | zero => rfl
  | succ count hypothesis =>
    have zero : (CodePoint.ofChar '0').hexValue? = some 0 := rfl
    rw [List.replicate_succ, List.cons_append, ← hypothesis]
    simp [ofHexDigits, Nat.ofDigits_append, zero]

theorem ofHexDigits_hexadecimal (width n : Nat) : ofHexDigits (hexadecimal width n) = n := by
  rw [hexadecimal, padded, ofHexDigits_zeros]
  exact (ofHexDigits_toDigits n).2

theorem isHex_of_mem_hexadecimal (width n : Nat) : ∀ d ∈ hexadecimal width n, d.isHex := by
  intro d member
  rcases List.mem_append.mp member with zero | digit
  · rw [List.eq_of_mem_replicate zero]
    rfl
  · exact (ofHexDigits_toDigits n).1 d digit

theorem length_hexadecimal {width n : Nat} (some_ : 0 < width) (fits : n < 16 ^ width) :
    (hexadecimal width n).length = width := by
  have short : (Nat.toDigits 16 n).length ≤ width := (Nat.length_toDigits_le_iff (by decide) some_).mpr fits
  simp only [hexadecimal, padded, List.length_append, List.length_replicate, List.length_map]
  omega

end Numeral

/-- What stands between the quotes of an escaped text: letters, digits and spaces as they are, and numbers behind a
backslash, with four hexadecimal digits or with eight. -/
inductive IsHarmless : Text → Prop where
  | nil : IsHarmless []
  | plain {c : CodePoint} {rest : Text} (shown : c.isPlain) (more : IsHarmless rest) : IsHarmless (c :: rest)
  | short {digits rest : Text} (four : digits.length = 4) (hex : ∀ d ∈ digits, d.isHex) (more : IsHarmless rest) :
      IsHarmless (CodePoint.ofChar '\\' :: CodePoint.ofChar 'u' :: (digits ++ rest))
  | long {digits rest : Text} (eight : digits.length = 8) (hex : ∀ d ∈ digits, d.isHex) (more : IsHarmless rest) :
      IsHarmless (CodePoint.ofChar '\\' :: CodePoint.ofChar 'U' :: (digits ++ rest))

namespace CodePoint

variable {c d : CodePoint}

private theorem isPlain_of_isHex (hex : d.isHex) : d.isPlain := by
  simp only [isPlain, isLetter_iff, Bool.or_eq_true]
  rw [isHex, hexValue?] at hex
  split at hex
  · next digit => exact .inr digit
  split at hex
  · next lower =>
    simp only [within, Char.reduceToNat, Bool.and_eq_true, decide_eq_true_eq] at lower
    omega
  split at hex
  · next upper =>
    simp only [within, Char.reduceToNat, Bool.and_eq_true, decide_eq_true_eq] at upper
    omega
  · cases hex

/-- A character is escaped by its number, of a length that the letter in front tells. -/
theorem exists_number_of_escaped (hidden : c.isPlain = false) : ∃ marker width,
    (marker = CodePoint.ofChar 'u' ∧ width = 4 ∧ c.val ≤ 0xFFFF ∨
      marker = CodePoint.ofChar 'U' ∧ width = 8 ∧ 0xFFFF < c.val) ∧
    (Numeral.hexadecimal width c.val).length = width ∧
    c.escaped = CodePoint.ofChar '\\' :: marker :: Numeral.hexadecimal width c.val := by
  have bound := c.isLt
  rw [escaped, hidden, if_neg nofun]
  by_cases large : c.val > 0xFFFF
  · rw [if_pos large]
    exact ⟨_, 8, .inr ⟨rfl, rfl, large⟩, Numeral.length_hexadecimal (by decide) (by omega), rfl⟩
  · rw [if_neg large]
    exact ⟨_, 4, .inl ⟨rfl, rfl, Nat.le_of_not_lt large⟩, Numeral.length_hexadecimal (by decide) (by omega), rfl⟩

theorem escaped_of_isPlain (shown : c.isPlain) : c.escaped = [c] :=
  if_pos shown

theorem ne_backslash_of_isPlain (shown : c.isPlain) : c ≠ '\\' := by
  rintro rfl
  cases shown

/-- Which character comes first in an escaped text, and what is behind it, is told by the text. -/
theorem escaped_append_inj {rest more : Text} (same : c.escaped ++ rest = d.escaped ++ more) :
    c = d ∧ rest = more := by
  cases first : c.isPlain with
  | true =>
    rw [escaped_of_isPlain first] at same
    cases second : d.isPlain with
    | true =>
      rw [escaped_of_isPlain second] at same
      exact List.cons.inj same
    | false =>
      obtain ⟨_, _, _, _, number⟩ := exists_number_of_escaped second
      rw [number] at same
      exact absurd (List.cons.inj same).1 (ne_backslash_of_isPlain first)
  | false =>
    obtain ⟨marker, width, kind, length, number⟩ := exists_number_of_escaped first
    rw [number] at same
    cases second : d.isPlain with
    | true =>
      rw [escaped_of_isPlain second] at same
      exact absurd (List.cons.inj same).1.symm (ne_backslash_of_isPlain second)
    | false =>
      obtain ⟨other, breadth, sort, extent, numeral⟩ := exists_number_of_escaped second
      rw [numeral] at same
      obtain ⟨markers, behind⟩ := List.cons.inj (List.cons.inj same).2
      have widths : width = breadth := by
        rcases kind with ⟨rfl, rfl, _⟩ | ⟨rfl, rfl, _⟩ <;> rcases sort with ⟨rfl, rfl, _⟩ | ⟨rfl, rfl, _⟩
        · rfl
        · exact absurd markers (by decide)
        · exact absurd markers (by decide)
        · rfl
      subst widths
      obtain ⟨digits, tails⟩ := List.append_inj behind (length.trans extent.symm)
      have values := congrArg Numeral.ofHexDigits digits
      rw [Numeral.ofHexDigits_hexadecimal, Numeral.ofHexDigits_hexadecimal] at values
      exact ⟨Fin.ext values, tails⟩

theorem escaped_ne_nil (c : CodePoint) : c.escaped ≠ [] := by
  cases shown : c.isPlain with
  | true =>
    rw [escaped_of_isPlain shown]
    exact List.cons_ne_nil _ _
  | false =>
    obtain ⟨_, _, _, _, number⟩ := exists_number_of_escaped shown
    rw [number]
    exact List.cons_ne_nil _ _

/-- A character that four digits suffice for is escaped as a piece that stands for it. -/
theorem exists_piece_of_escaped (small : c.val ≤ 0xFFFF) :
    ∃ piece : Piece (CodePoint.ofChar '\x27'), piece.spelling = c.escaped ∧ piece.meaning = c := by
  cases shown : c.isPlain with
  | true =>
    have noQuote : c ≠ '\x27' := by
      rintro rfl
      cases shown
    exact ⟨.plain c (ne_backslash_of_isPlain shown) noQuote, (escaped_of_isPlain shown).symm, rfl⟩
  | false =>
    obtain ⟨marker, width, ⟨rfl, rfl, _⟩ | ⟨_, _, large⟩, length, number⟩ := exists_number_of_escaped shown
    · exact ⟨.numbered _ length (Numeral.isHex_of_mem_hexadecimal 4 c.val), number.symm,
        Fin.ext (Numeral.ofHexDigits_hexadecimal 4 c.val)⟩
    · exact absurd small (Nat.not_le_of_lt large)

end CodePoint

namespace IsHarmless

theorem mem {inside : Text} (harmless : IsHarmless inside) : ∀ c ∈ inside, c = '\\' ∨ c.isPlain := by
  have numbered {marker : CodePoint} {digits rest : Text} (letter : marker.isPlain) (hex : ∀ d ∈ digits, d.isHex)
      (others : ∀ c ∈ rest, c = '\\' ∨ c.isPlain) :
      ∀ c ∈ CodePoint.ofChar '\\' :: marker :: (digits ++ rest), c = '\\' ∨ c.isPlain := by
    intro c member
    simp only [List.mem_cons, List.mem_append] at member
    rcases member with rfl | rfl | digit | other
    · exact .inl rfl
    · exact .inr letter
    · exact .inr (CodePoint.isPlain_of_isHex (hex c digit))
    · exact others c other
  induction harmless with
  | nil => exact List.forall_mem_nil _
  | plain shown _ hypothesis => exact List.forall_mem_cons.mpr ⟨.inr shown, hypothesis⟩
  | short _ hex _ hypothesis => exact numbered rfl hex hypothesis
  | long _ hex _ hypothesis => exact numbered rfl hex hypothesis

private theorem escaped_append {rest : Text} (c : CodePoint) (more : IsHarmless rest) :
    IsHarmless (c.escaped ++ rest) := by
  cases shown : c.isPlain with
  | true =>
    rw [CodePoint.escaped_of_isPlain shown]
    exact .plain shown more
  | false =>
    obtain ⟨marker, width, ⟨rfl, rfl, _⟩ | ⟨rfl, rfl, _⟩, length, number⟩ := CodePoint.exists_number_of_escaped shown
    · rw [number]
      exact .short length (Numeral.isHex_of_mem_hexadecimal 4 c.val) more
    · rw [number]
      exact .long length (Numeral.isHex_of_mem_hexadecimal 8 c.val) more

end IsHarmless

namespace Text

theorem exists_inside_escaped (t : Text) : ∃ inside, t.escaped = Text.of "'" ++ inside ++ Text.of "'" ∧
    IsHarmless inside := by
  refine ⟨t.flatMap CodePoint.escaped, rfl, ?_⟩
  induction t with
  | nil => exact .nil
  | cons c t hypothesis => exact hypothesis.escaped_append c

theorem escaped_injective : Function.Injective Text.escaped := by
  intro t u same
  have inside : t.flatMap CodePoint.escaped = u.flatMap CodePoint.escaped :=
    List.append_cancel_left (List.append_cancel_right same)
  clear same
  induction t generalizing u with
  | nil =>
    cases u with
    | nil => rfl
    | cons d u => exact absurd (List.append_eq_nil_iff.mp inside.symm).1 d.escaped_ne_nil
  | cons c t hypothesis =>
    cases u with
    | nil => exact absurd (List.append_eq_nil_iff.mp inside).1 c.escaped_ne_nil
    | cons d u =>
      obtain ⟨rfl, behind⟩ := CodePoint.escaped_append_inj inside
      rw [hypothesis behind]

private theorem exists_pieces_of_escaped {t : Text} (small : ∀ c ∈ t, c.val ≤ 0xFFFF) :
    ∃ pieces : List (Piece (CodePoint.ofChar '\x27')), t.escaped = Piece.literal pieces ∧ Piece.meanings pieces = t := by
  obtain ⟨pieces, spells, means⟩ : ∃ pieces : List (Piece (CodePoint.ofChar '\x27')),
      Piece.spellings pieces = t.flatMap CodePoint.escaped ∧ Piece.meanings pieces = t := by
    induction t with
    | nil => exact ⟨[], rfl, rfl⟩
    | cons c t hypothesis =>
      obtain ⟨first, others⟩ := List.forall_mem_cons.mp small
      obtain ⟨piece, spelled, meant⟩ := CodePoint.exists_piece_of_escaped first
      obtain ⟨pieces, spells, means⟩ := hypothesis others
      refine ⟨piece :: pieces, ?_, ?_⟩
      · rw [Piece.spellings_cons, spelled, spells]
        rfl
      · exact congrArg₂ List.cons meant means
  exact ⟨pieces, by rw [Piece.literal, spells]; rfl, means⟩

theorem tokenize_escaped {t : Text} (small : ∀ c ∈ t, c.val ≤ 0xFFFF) :
    tokenize t.escaped = .ok [⟨.string, t.escaped, .text t, ⟨1, 1⟩⟩,
      ⟨.endOfInput, [], .null, .behind t.escaped⟩] := by
  obtain ⟨pieces, written, rfl⟩ := exists_pieces_of_escaped small
  rw [written]
  have front : (Scanner.start (Piece.literal pieces)).rest = Piece.literal pieces ++ [] := (List.append_nil _).symm
  have moves : (Scanner.start (Piece.literal pieces)).Moves _ :=
    ⟨List.cons_ne_nil _ _, Scanner.scan_of_literal (.inr rfl) pieces front⟩
  have here : (Scanner.start (Piece.literal pieces)).position = .behind [] := rfl
  have place := Scanner.position_passing_behind here (Piece.literal pieces)
  rw [tokenize_of_runs (.single moves) (Scanner.rest_passing front), Scanner.tokens_add, Scanner.tokens_passing]
  exact congrArg (fun place => Except.ok [Piece.token pieces ⟨1, 1⟩, ⟨.endOfInput, [], .null, place⟩]) place

end Text

end GuardedExpr

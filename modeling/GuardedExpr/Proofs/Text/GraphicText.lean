import GuardedExpr.Code.Compile
import GuardedExpr.Proofs.Node.WrittenTrees
import GuardedExpr.Proofs.Text.EscapedText

/-!
Graphic texts consist of the characters of ASCII that show a shape, and the space. Numerals, the displays of scalars
and escaped texts are graphic, so nothing in them ends a line, and lines that are put together stay the lines there
are.
-/

namespace GuardedExpr

def CodePoint.isGraphic (c : CodePoint) : Bool :=
  0x20 ≤ c.val && c.val ≤ 0x7E

theorem CodePoint.isGraphic_of_isPlain {c : CodePoint} (shown : c.isPlain) : c.isGraphic := by
  simp only [isPlain, Bool.or_eq_true, decide_eq_true_eq, isLetter_iff, isDigit_iff] at shown
  simp only [isGraphic, Bool.and_eq_true, decide_eq_true_eq]
  rcases shown with (rfl | letter) | digit
  · decide
  · omega
  · omega

private theorem CodePoint.isGraphic_of_continuesName {c : CodePoint} (continues : c.continuesName) :
    c.isGraphic := by
  simp only [continuesName, startsName, Bool.or_eq_true, decide_eq_true_eq] at continues
  rcases continues with ((letter | rfl) | rfl) | digit
  · exact isGraphic_of_isPlain (by simp [isPlain, letter])
  · rfl
  · rfl
  · exact isGraphic_of_isPlain (by simp [isPlain, digit])

namespace Text

variable {t u : Text} {pieces : List Text}

def IsGraphic (t : Text) : Prop :=
  t.all CodePoint.isGraphic

theorem isGraphic_iff : t.IsGraphic ↔ ∀ c ∈ t, c.isGraphic :=
  List.all_eq_true

theorem IsGraphic.append (one : t.IsGraphic) (other : u.IsGraphic) : IsGraphic (t ++ u) := by
  rw [isGraphic_iff] at *
  exact List.forall_mem_append.mpr ⟨one, other⟩

theorem IsGraphic.sub (whole : t.IsGraphic) (sub : u ⊆ t) : u.IsGraphic :=
  isGraphic_iff.mpr fun c member => isGraphic_iff.mp whole c (sub member)

theorem isGraphic_join {separator : Text} (between : separator.IsGraphic) (all : ∀ piece ∈ pieces, piece.IsGraphic) :
    IsGraphic (join separator pieces) := by
  induction pieces with
  | nil => rfl
  | cons piece pieces hypothesis =>
    obtain ⟨first, others⟩ := List.forall_mem_cons.mp all
    cases pieces with
    | nil => exact first
    | cons next pieces => exact (first.append between).append (hypothesis others)

theorem isGraphic_replicate (count : Nat) : IsGraphic (List.replicate count (CodePoint.ofChar '0')) := by
  refine isGraphic_iff.mpr fun c member => ?_
  rw [List.eq_of_mem_replicate member]
  rfl

theorem isGraphic_of_isName (word : Lexeme.IsName t) : t.IsGraphic :=
  isGraphic_iff.mpr fun c member => c.isGraphic_of_continuesName (Lexeme.continuesName_of_isName word c member)

theorem isGraphic_escaped (t : Text) : t.escaped.IsGraphic := by
  obtain ⟨inside, same, harmless⟩ := exists_inside_escaped t
  have graphic : inside.IsGraphic := isGraphic_iff.mpr fun c member => by
    rcases harmless.mem c member with rfl | shown
    · rfl
    · exact c.isGraphic_of_isPlain shown
  have quote : (Text.of "'").IsGraphic := rfl
  rw [same]
  exact (quote.append graphic).append quote

/-! Lines. -/

private theorem lines_of_noFeed (single : CodePoint.ofChar '\n' ∉ t) : lines t = [t] := by
  induction t with
  | nil => rfl
  | cons c t hypothesis =>
    obtain ⟨other, rest⟩ := not_or.mp (mt List.mem_cons.mpr single)
    rw [lines, if_neg (Ne.symm other), hypothesis rest]

private theorem lines_append_feed (single : CodePoint.ofChar '\n' ∉ t) (u : Text) :
    lines (t ++ CodePoint.ofChar '\n' :: u) = t :: lines u := by
  induction t with
  | nil => rfl
  | cons c t hypothesis =>
    obtain ⟨other, rest⟩ := not_or.mp (mt List.mem_cons.mpr single)
    rw [List.cons_append, lines, if_neg (Ne.symm other), hypothesis rest]

theorem lines_join (some_ : pieces ≠ []) (single : ∀ piece ∈ pieces, CodePoint.ofChar '\n' ∉ piece) :
    lines (join (Text.of "\n") pieces) = pieces := by
  induction pieces with
  | nil => exact absurd rfl some_
  | cons piece pieces hypothesis =>
    obtain ⟨first, others⟩ := List.forall_mem_cons.mp single
    cases pieces with
    | nil => exact lines_of_noFeed first
    | cons next pieces =>
      have whole : join (Text.of "\n") (piece :: next :: pieces) =
          piece ++ CodePoint.ofChar '\n' :: join (Text.of "\n") (next :: pieces) := List.append_assoc _ _ _
      rw [whole, lines_append_feed first, hypothesis (List.cons_ne_nil _ _) others]

theorem mem_join {separator : Text} {c : CodePoint} (member : c ∈ join separator pieces) :
    c ∈ separator ∨ ∃ piece ∈ pieces, c ∈ piece := by
  induction pieces with
  | nil => cases member
  | cons piece pieces hypothesis =>
    cases pieces with
    | nil => exact .inr ⟨piece, List.mem_singleton_self _, member⟩
    | cons next pieces =>
      rcases List.mem_append.mp member with front | behind
      · rcases List.mem_append.mp front with first | between
        · exact .inr ⟨piece, List.mem_cons_self, first⟩
        · exact .inl between
      · rcases hypothesis behind with between | ⟨other, inside, found⟩
        · exact .inl between
        · exact .inr ⟨other, List.mem_cons_of_mem _ inside, found⟩

theorem IsGraphic.noFeed (graphic : t.IsGraphic) : CodePoint.ofChar '\n' ∉ t := by
  intro member
  cases isGraphic_iff.mp graphic _ member

end Text

/-! Numerals and displays. -/

namespace Numeral

theorem isGraphic_decimal (n : Nat) : (decimal n).IsGraphic := by
  refine Text.isGraphic_iff.mpr fun c member => ?_
  obtain ⟨digit, inside, rfl⟩ := List.mem_map.mp member
  have bounds := Nat.isDigit_of_mem_toDigits (by decide) (by decide) inside
  simp only [Char.isDigit, Bool.and_eq_true, decide_eq_true_eq] at bounds
  have low : 48 ≤ digit.toNat := bounds.1
  have high : digit.toNat ≤ 57 := bounds.2
  change (decide (0x20 ≤ digit.toNat) && decide (digit.toNat ≤ 0x7E)) = true
  simp only [Bool.and_eq_true, decide_eq_true_eq]
  omega

private theorem isGraphic_signed (n : Int) : (signed n).IsGraphic := by
  cases n with
  | ofNat n => exact isGraphic_decimal n
  | negSucc n => exact Text.IsGraphic.append rfl (isGraphic_decimal _)

end Numeral

namespace Double

private theorem isGraphic_layout {digits : Text} (graphic : digits.IsGraphic) (leading : Int) :
    (layout digits leading).IsGraphic := by
  have point {t : Text} (rest : t.IsGraphic) : Text.IsGraphic (CodePoint.ofChar '.' :: t) :=
    Text.IsGraphic.append (t := Text.of ".") rfl rest
  have scientific {mantissa : Text} (front : mantissa.IsGraphic) :
      Text.IsGraphic (mantissa ++ CodePoint.ofChar 'e' :: CodePoint.ofChar (if leading < 0 then '-' else '+') ::
        Numeral.padded 2 (Numeral.decimal leading.natAbs)) := by
    have exponent : Text.IsGraphic (Numeral.padded 2 (Numeral.decimal leading.natAbs)) :=
      (Text.isGraphic_replicate _).append (Numeral.isGraphic_decimal _)
    refine front.append ?_
    split
    · exact Text.IsGraphic.append (t := Text.of "e-") rfl exponent
    · exact Text.IsGraphic.append (t := Text.of "e+") rfl exponent
  unfold layout
  dsimp only
  split
  · cases leading with
    | negSucc k => exact Text.IsGraphic.append (t := Text.of "0.") rfl ((Text.isGraphic_replicate _).append graphic)
    | ofNat k =>
      have whole := graphic.sub (List.take_subset (k + 1) digits)
      have fraction := graphic.sub (List.drop_subset (k + 1) digits)
      refine (whole.append (Text.isGraphic_replicate _)).append (point ?_)
      split
      · rfl
      · exact fraction
  · refine scientific ?_
    match digits with
    | [] | [_] => exact graphic
    | first :: second :: rest =>
      have one : Text.IsGraphic [first] := graphic.sub (by simp)
      exact one.append (point (graphic.sub (List.subset_cons_self _ _)))

theorem isGraphic_magnitudeText (rank : Nat) : (magnitudeText rank).IsGraphic := by
  unfold magnitudeText
  split
  · rfl
  · exact isGraphic_layout (Numeral.isGraphic_decimal _) _

private theorem isGraphic_text (x : Double) : x.text.IsGraphic := by
  unfold text
  split
  · rfl
  · rfl
  · rfl
  · exact isGraphic_magnitudeText _
  · exact Text.IsGraphic.append (t := Text.of "-") rfl (isGraphic_magnitudeText _)

end Double

/-- A scalar is shown in listings by a graphic text, whatever a text holds. -/
theorem Heap.isGraphic_escape (h : Heap) {value : Value} (scalar : value.isScalar) : (h.escape value).IsGraphic := by
  cases value with
  | null => rfl
  | bool b => cases b <;> rfl
  | int n => exact Numeral.isGraphic_signed n
  | float x => exact x.isGraphic_text
  | text t => exact t.isGraphic_escaped
  | _ => cases scalar

end GuardedExpr

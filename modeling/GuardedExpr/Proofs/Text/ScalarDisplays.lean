import GuardedExpr.Proofs.Double.NumbersReadBack
import GuardedExpr.Proofs.Text.GraphicText
import GuardedExpr.Proofs.Token.RespacedSource

/-!
Displays tell scalars apart. A quoted text stands between its quotes, with nothing in it that could end it or the line;
whole numbers, other numbers, words and quoted texts look different from each other, and two of the same kind have the
same display only if they are the same.
-/

namespace GuardedExpr

/-! Quoted texts. -/

namespace CodePoint

def isQuote (c : CodePoint) : Bool :=
  c = '\x27' || c = '"'

def escapeWidth (marker : CodePoint) : Nat :=
  if marker = 'x' then 2 else if marker = 'u' then 4 else if marker = 'U' then 8 else 0

def escapeMeaning (marker : CodePoint) (digits : Text) : Nat :=
  if 0 < escapeWidth marker then Numeral.ofHexDigits digits
  else if marker = 'n' then 0x0A
  else if marker = 'r' then 0x0D
  else if marker = 't' then 0x09
  else marker.val

structure IsEscape (shown : Text) (c marker : CodePoint) (digits : Text) : Prop where
  shape : shown = CodePoint.ofChar '\\' :: marker :: digits
  length : digits.length = escapeWidth marker
  means : escapeMeaning marker digits = c.val
  single : CodePoint.ofChar '\n' ∉ marker :: digits

variable {quote c d : CodePoint}

theorem isEscape_numbered (marker : CodePoint) {width : Nat} (some_ : 0 < width) (same : escapeWidth marker = width)
    (letter : marker ≠ '\n') (fits : c.val < 16 ^ width) :
    IsEscape (CodePoint.ofChar '\\' :: marker :: Numeral.hexadecimal width c.val) c marker
      (Numeral.hexadecimal width c.val) where
  shape := rfl
  length := (Numeral.length_hexadecimal some_ fits).trans same.symm
  means := by rw [escapeMeaning, if_pos (same ▸ some_), Numeral.ofHexDigits_hexadecimal]
  single member := by
    rcases List.mem_cons.mp member with own | digit
    · exact letter own.symm
    · cases Numeral.isHex_of_mem_hexadecimal width c.val _ digit

/-- A character that is escaped by a letter or by itself. -/
theorem isEscape_single {marker : CodePoint} (width : escapeWidth marker = 0) (letter : marker ≠ '\n')
    (means : escapeMeaning marker [] = c.val) : IsEscape [CodePoint.ofChar '\\', marker] c marker [] :=
  ⟨rfl, width.symm, means, fun member => letter (List.mem_singleton.mp member).symm⟩

theorem isEscape_quotedPoint (quotes : quote.isQuote) (c : CodePoint) :
    (Text.quotedPoint quote c = [c] ∧ c ≠ '\\' ∧ c ≠ '\n') ∨
      ∃ marker digits, IsEscape (Text.quotedPoint quote c) c marker digits := by
  have bound := c.isLt
  unfold Text.quotedPoint Text.numberedEscape
  split_ifs with same feed carriage tab printable two four
  · simp only [isQuote, Bool.or_eq_true, decide_eq_true_eq] at same quotes
    refine .inr ⟨c, [], isEscape_single ?_ ?_ ?_⟩ <;> rcases same with rfl | rfl <;> try rcases quotes with rfl | rfl
    all_goals decide
  · exact .inr ⟨_, [], isEscape_single rfl (by decide) (congrArg Fin.val feed.symm)⟩
  · exact .inr ⟨_, [], isEscape_single rfl (by decide) (congrArg Fin.val carriage.symm)⟩
  · exact .inr ⟨_, [], isEscape_single rfl (by decide) (congrArg Fin.val tab.symm)⟩
  · simp only [Bool.or_eq_true, decide_eq_true_eq, not_or] at same
    exact .inl ⟨rfl, same.2, feed⟩
  · exact .inr ⟨_, _, isEscape_numbered (CodePoint.ofChar 'x') (by decide) rfl (by decide) (by omega)⟩
  · exact .inr ⟨_, _, isEscape_numbered (CodePoint.ofChar 'u') (by decide) rfl (by decide) (by omega)⟩
  · exact .inr ⟨_, _, isEscape_numbered (CodePoint.ofChar 'U') (by decide) rfl (by decide) (by omega)⟩

/-- Which character comes first in a quoted text, and what is behind it, is told by the text. -/
theorem quotedPoint_append_inj (quotes : quote.isQuote) {rest more : Text}
    (same : Text.quotedPoint quote c ++ rest = Text.quotedPoint quote d ++ more) : c = d ∧ rest = more := by
  rcases isEscape_quotedPoint quotes c with ⟨one, plain, _⟩ | ⟨marker, digits, escape⟩ <;>
    rcases isEscape_quotedPoint quotes d with ⟨other, clear, _⟩ | ⟨letter, numeral, also⟩
  · rw [one, other] at same
    exact List.cons.inj same
  · rw [one, also.shape] at same
    exact absurd (List.cons.inj same).1 plain
  · rw [escape.shape, other] at same
    exact absurd (List.cons.inj same).1.symm clear
  · rw [escape.shape, also.shape] at same
    obtain ⟨rfl, behind⟩ := List.cons.inj (List.cons.inj same).2
    obtain ⟨rfl, tails⟩ := List.append_inj behind (escape.length.trans also.length.symm)
    exact ⟨Fin.ext (escape.means.symm.trans also.means), tails⟩

theorem quotedPoint_ne_nil (quotes : quote.isQuote) (c : CodePoint) : Text.quotedPoint quote c ≠ [] := by
  rcases isEscape_quotedPoint quotes c with ⟨one, _⟩ | ⟨marker, digits, escape⟩
  · rw [one]
    exact List.cons_ne_nil _ _
  · rw [escape.shape]
    exact List.cons_ne_nil _ _

private theorem noFeed_quotedPoint (quotes : quote.isQuote) (c : CodePoint) :
    CodePoint.ofChar '\n' ∉ Text.quotedPoint quote c := by
  rcases isEscape_quotedPoint quotes c with ⟨one, _, other⟩ | ⟨marker, digits, escape⟩
  · rw [one]
    exact fun member => other (List.mem_singleton.mp member).symm
  · rw [escape.shape]
    exact fun member => (List.mem_cons.mp member).elim nofun escape.single

end CodePoint

namespace Text

theorem isQuote_chosenQuote (t : Text) : t.chosenQuote.isQuote := by
  unfold chosenQuote
  split <;> rfl

private theorem flatMap_quotedPoint_inj {quote : CodePoint} (quotes : quote.isQuote) {t u : Text}
    (same : t.flatMap (quotedPoint quote) = u.flatMap (quotedPoint quote)) : t = u := by
  induction t generalizing u with
  | nil =>
    cases u with
    | nil => rfl
    | cons d u => exact absurd (List.append_eq_nil_iff.mp same.symm).1 (CodePoint.quotedPoint_ne_nil quotes d)
  | cons c t hypothesis =>
    cases u with
    | nil => exact absurd (List.append_eq_nil_iff.mp same).1 (CodePoint.quotedPoint_ne_nil quotes c)
    | cons d u =>
      obtain ⟨rfl, behind⟩ := CodePoint.quotedPoint_append_inj quotes same
      rw [hypothesis behind]

private theorem quoted_injective : Function.Injective quoted := by
  intro t u same
  obtain ⟨quotes, behind⟩ := List.cons.inj same
  rw [← quotes] at behind
  exact flatMap_quotedPoint_inj t.isQuote_chosenQuote (List.append_cancel_right behind)

private theorem noFeed_quoted (t : Text) : CodePoint.ofChar '\n' ∉ t.quoted := by
  have quotes := t.isQuote_chosenQuote
  have noQuote : CodePoint.ofChar '\n' ≠ t.chosenQuote := fun same => by
    rw [← same] at quotes
    cases quotes
  have inside : CodePoint.ofChar '\n' ∉ t.flatMap (quotedPoint t.chosenQuote) := fun member => by
    obtain ⟨c, _, found⟩ := List.mem_flatMap.mp member
    exact CodePoint.noFeed_quotedPoint quotes c found
  unfold quoted
  simp [noQuote, inside]

end Text

/-! Kinds of displays. -/

namespace Text

def isWord (t : Text) : Bool :=
  t = Text.of "None" || t = Text.of "True" || t = Text.of "False"

def isQuoted (t : Text) : Bool :=
  t.head?.any CodePoint.isQuote

def isWhole (t : Text) : Bool :=
  t.all fun c => c.isDigit || c = '-'

def look (t : Text) : Bool × Bool × Bool :=
  (t.isWord, t.isQuoted, t.isWhole)

private theorem look_of_isWhole {t : Text} (whole : t.isWhole) : t.look = (false, false, true) := by
  have noWord : t.isWord = false := by
    simp only [isWord, Bool.or_eq_false_iff, decide_eq_false_iff_not]
    refine ⟨⟨?_, ?_⟩, ?_⟩ <;> rintro rfl <;> cases whole
  have noQuote : t.isQuoted = false := by
    cases t with
    | nil => rfl
    | cons c t =>
      have first := (Bool.and_eq_true_iff.mp whole).1
      rw [isQuoted, List.head?_cons, Option.any_some, CodePoint.isQuote, Bool.or_eq_false_iff, decide_eq_false_iff_not,
        decide_eq_false_iff_not]
      refine ⟨?_, ?_⟩ <;> rintro rfl <;> cases first
  rw [look, noWord, noQuote, whole]

private theorem look_quoted (t : Text) : t.quoted.look = (false, true, false) := by
  have quotes := t.isQuote_chosenQuote
  unfold look isWord isQuoted isWhole quoted
  simp only [CodePoint.isQuote, Bool.or_eq_true, decide_eq_true_eq] at quotes
  rcases quotes with same | same <;> rw [same] <;> rfl

end Text

private theorem Numeral.isWhole_signed (n : Int) : (signed n).isWhole := by
  have digits (n : Nat) : (decimal n).isWhole := by
    refine List.all_eq_true.mpr fun c member => ?_
    rw [(decimal_spells n).1 c member]
    rfl
  cases n with
  | ofNat n => exact digits n
  | negSucc n => exact digits (n + 1)

private theorem Numeral.signed_injective : Function.Injective signed := by
  have noMinus (n : Nat) (t : Text) : decimal n ≠ CodePoint.ofChar '-' :: t := by
    intro same
    have digit := (decimal_spells n).1
    rw [same] at digit
    cases digit _ List.mem_cons_self
  intro n m same
  cases n with
  | ofNat n =>
    cases m with
    | ofNat m => exact congrArg Int.ofNat (decimal_injective same)
    | negSucc m => exact absurd same (noMinus n _)
  | negSucc n =>
    cases m with
    | ofNat m => exact absurd same.symm (noMinus m _)
    | negSucc m => exact congrArg Int.negSucc (Nat.succ.inj (decimal_injective (List.cons.inj same).2))

namespace Double

private theorem layout_shape {digits : Text} (all : ∀ c ∈ digits, c.isDigit) (some_ : digits ≠ [])
    (leading : Int) :
    (∃ c rest, layout digits leading = c :: rest ∧ c.isDigit) ∧
      (CodePoint.ofChar '.' ∈ layout digits leading ∨ CodePoint.ofChar 'e' ∈ layout digits leading) := by
  obtain ⟨first, others, rfl⟩ := List.exists_cons_of_ne_nil some_
  have digit := all first List.mem_cons_self
  unfold layout
  dsimp only
  split
  · cases leading with
    | negSucc k => exact ⟨⟨_, _, rfl, rfl⟩, .inl (by simp)⟩
    | ofNat k => exact ⟨⟨first, _, rfl, digit⟩, .inl (by simp)⟩
  · refine ⟨?_, .inr (by simp)⟩
    cases others with
    | nil => exact ⟨first, _, rfl, digit⟩
    | cons second rest => exact ⟨first, _, rfl, digit⟩

private theorem magnitudeText_shape (rank : Nat) :
    (∃ c rest, magnitudeText rank = c :: rest ∧ c.isDigit) ∧
      (CodePoint.ofChar '.' ∈ magnitudeText rank ∨ CodePoint.ofChar 'e' ∈ magnitudeText rank) := by
  unfold magnitudeText
  split
  · exact ⟨⟨_, _, rfl, rfl⟩, .inl (by decide)⟩
  · exact layout_shape (Numeral.decimal_spells _).1 (Numeral.decimal_ne_nil _) _

private theorem look_text (x : Double) : x.text.look = (false, false, false) := by
  -- the first character excludes a word and quotes, some other one a whole number
  have look_ {c : CodePoint} {rest : Text} (first : c.isDigit ∨ c = '-') {mark : CodePoint} (member : mark ∈ c :: rest)
      (letter : (mark.isDigit || mark = '-') = false) : Text.look (c :: rest) = (false, false, false) := by
    have whole : Text.isWhole (c :: rest) = false := List.all_eq_false.mpr ⟨mark, member, by rw [letter]; nofun⟩
    have noWord : Text.isWord (c :: rest) = false := by
      simp only [Text.isWord, Bool.or_eq_false_iff, decide_eq_false_iff_not]
      refine ⟨⟨?_, ?_⟩, ?_⟩ <;> intro same <;> cases (List.cons.inj same).1 <;> exact absurd first (by decide)
    have noQuote : Text.isQuoted (c :: rest) = false := by
      rw [Text.isQuoted, List.head?_cons, Option.any_some, CodePoint.isQuote, Bool.or_eq_false_iff,
        decide_eq_false_iff_not, decide_eq_false_iff_not]
      refine ⟨?_, ?_⟩ <;> rintro rfl <;> exact absurd first (by decide)
    rw [Text.look, noWord, noQuote, whole]
  cases x with
  | nan _ => rfl
  | infinite negative => cases negative <;> rfl
  | finite negative rank =>
    obtain ⟨⟨c, rest, shape, digit⟩, mark⟩ := magnitudeText_shape rank
    cases negative with
    | false =>
      change (magnitudeText rank).look = _
      rw [shape] at mark ⊢
      exact mark.elim (fun point => look_ (.inl digit) point rfl) fun marker => look_ (.inl digit) marker rfl
    | true =>
      exact mark.elim (fun point => look_ (.inr rfl) (List.mem_cons_of_mem _ point) rfl)
        fun marker => look_ (.inr rfl) (List.mem_cons_of_mem _ marker) rfl

end Double

/-! Displays of scalars. -/

namespace Value

theorem unmarked_float (x : Double) : (float x).unmarked = float x.unmarked := by
  cases x <;> rfl

def look : Value → Bool × Bool × Bool
  | .int _ => (false, false, true)
  | .text _ => (false, true, false)
  | .float _ => (false, false, false)
  | _ => (true, false, false)

end Value

namespace Heap

variable {v w : Value}

theorem look_display (h : Heap) (scalar : v.isScalar) : (h.display v).look = v.look := by
  cases v with
  | null => rfl
  | bool b => cases b <;> rfl
  | int n => exact Text.look_of_isWhole (Numeral.isWhole_signed n)
  | float x => exact x.look_text
  | text t => exact t.look_quoted
  | _ => cases scalar

theorem unmarked_of_display {g h : Heap} (scalar : v.isScalar) (also : w.isScalar) (same : h.display v = g.display w) :
    v.unmarked = w.unmarked := by
  have looks : v.look = w.look := by rw [← look_display h scalar, same, look_display g also]
  cases v with
  | null =>
    cases w with
    | null => rfl
    | bool b => cases b <;> cases same
    | int _ | float _ | text _ => cases looks
    | _ => cases also
  | bool b =>
    cases w with
    | null => cases b <;> cases same
    | bool c => cases b <;> cases c <;> first | rfl | cases same
    | int _ | float _ | text _ => cases looks
    | _ => cases also
  | int n =>
    cases w with
    | int m => exact congrArg Value.int (Numeral.signed_injective same)
    | null | bool _ | float _ | text _ => cases looks
    | _ => cases also
  | float x =>
    cases w with
    | float y =>
      have text : x.text = y.text := same
      rw [Value.unmarked_float, Value.unmarked_float, ← x.ofShown_text, text, y.ofShown_text]
    | null | bool _ | int _ | text _ => cases looks
    | _ => cases also
  | text t =>
    cases w with
    | text u => exact congrArg Value.text (Text.quoted_injective same)
    | null | bool _ | int _ | float _ => cases looks
    | _ => cases also
  | _ => cases scalar

theorem display_unmarked (g h : Heap) (scalar : v.isScalar) : g.display v.unmarked = h.display v := by
  cases v with
  | float x => cases x <;> rfl
  | bool b => cases b <;> rfl
  | null | int _ | text _ => rfl
  | _ => cases scalar

theorem noFeed_display (h : Heap) (scalar : v.isScalar) : CodePoint.ofChar '
' ∉ h.display v := by
  cases v with
  | text t => exact t.noFeed_quoted
  | null | bool _ | int _ | float _ => exact (isGraphic_escape h scalar).noFeed
  | _ => cases scalar

end Heap

end GuardedExpr

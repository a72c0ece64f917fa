import GuardedExpr.Proofs.Node.ReaderSoundness

/-!
Every spelling of a tree is read as that tree, whatever stands behind it that does not go on with it. Together with
what the reader takes this says that a strict reader accepts exactly the spellings of expressions, and that no run of
tokens spells two of them.
-/

namespace GuardedExpr

namespace Reader

open Token (AreLexical)

variable {fuel : Nat} {token l r m : Token} {tokens ts us rest : List Token} {a b node : Node} {as : List Node}
  {phrase : Phrase}

@[simp]
theorem areLexical_append : AreLexical (ts ++ us) ↔ AreLexical ts ∧ AreLexical us :=
  List.forall_mem_append

@[simp]
theorem areLexical_cons : AreLexical (token :: ts) ↔ token.kind.IsShape token.text ∧ AreLexical ts :=
  List.forall_mem_cons

def Begins (kind : TokenKind) : Prop :=
  kind = .leftBracket ∨ kind = .leftBrace ∨ kind = .identifier ∨ kind = .number ∨ kind = .string

theorem begins_of_literal (is : token.IsLiteral) : Begins token.kind := by
  rcases is with is | is
  · exact .inr (.inr (.inr (.inl is)))
  · exact .inr (.inr (.inr (.inr is)))

theorem begins_of_key (is : token.IsKey node) : Begins token.kind := by
  cases is with
  | name is => exact .inr (.inr (.inl is))
  | literal is => exact begins_of_literal is

theorem begins_append (front : ∃ first others, ts = first :: others ∧ Begins first.kind) (us : List Token) :
    ∃ first others, ts ++ us = first :: others ∧ Begins first.kind := by
  obtain ⟨first, others, rfl, begins⟩ := front
  exact ⟨first, others ++ us, rfl, begins⟩

private theorem begins_of_spells (spelled : Spells ts phrase) :
    ∃ first others, ts = first :: others ∧ Begins first.kind := by
  induction spelled with
  | expression _ hypothesis => exact hypothesis
  | item _ hypothesis => exact hypothesis
  | assignment _ _ _ hypothesis _ => exact begins_append hypothesis _
  | field _ _ _ hypothesis => exact begins_append hypothesis _
  | index _ _ _ _ hypothesis _ => exact begins_append hypothesis _
  | emptyCall _ _ _ hypothesis => exact begins_append hypothesis _
  | call _ _ _ _ hypothesis _ => exact begins_append hypothesis _
  | items _ _ _ hypothesis _ => exact begins_append hypothesis _
  | reserved is _ => exact ⟨_, _, rfl, .inr (.inr (.inl is))⟩
  | name is _ => exact ⟨_, _, rfl, .inr (.inr (.inl is))⟩
  | literal is => exact ⟨_, _, rfl, begins_of_literal is⟩
  | emptyArray opens _ => exact ⟨_, _, rfl, .inl opens⟩
  | array opens _ _ _ => exact ⟨_, _, rfl, .inl opens⟩
  | arrayWithComma opens _ _ _ _ => exact ⟨_, _, rfl, .inl opens⟩
  | emptyObject opens _ => exact ⟨_, _, rfl, .inr (.inl opens)⟩
  | object opens _ _ _ => exact ⟨_, _, rfl, .inr (.inl opens)⟩
  | property is _ _ _ => exact ⟨_, _, rfl, begins_of_key is⟩
  | properties is _ _ _ _ _ _ => exact ⟨_, _, rfl, begins_of_key is⟩

theorem ne_of_begins {kind : TokenKind} (spelled : Spells ts phrase) (other : ¬ Begins kind) :
    ∀ token ∈ (ts ++ rest).head?, token.kind ≠ kind := by
  obtain ⟨first, others, rfl, begins⟩ := begins_of_spells spelled
  rintro _ ⟨⟩ rfl
  exact other begins

def Ends (rest : List Token) : Prop :=
  ∀ token ∈ rest.head?, token.kind ≠ .dot ∧ token.kind ≠ .leftBracket ∧ token.kind ≠ .leftParen

/-! Single productions. -/

section

variable {α : Type} {mark : String} {kind : TokenKind} {yes no : Reader α}

theorem accept_then (lexical : AreLexical (token :: rest)) (is : token.kind = kind) (written : kind.IsWrittenAs mark) :
    (do if ← accept mark then yes else no : Reader α).run.run (token :: rest) = yes.run.run rest := by
  rw [run_bind_ok (accept_hit lexical is written), if_pos rfl]

theorem accept_else (kind : TokenKind) (lexical : AreLexical tokens) (isnt : ∀ token ∈ tokens.head?, token.kind ≠ kind)
    (written : kind.IsWrittenAs mark) :
    (do if ← accept mark then yes else no : Reader α).run.run tokens = no.run.run tokens := by
  rw [run_bind_ok (accept_miss lexical isnt written), if_neg Bool.false_ne_true]

theorem ne_head {other : TokenKind} (is : token.kind = kind) (differ : kind ≠ other) :
    ∀ first ∈ (token :: rest).head?, first.kind ≠ other := by
  rintro _ ⟨⟩ same
  exact differ (is.symm.trans same)

end

private theorem primary_of_array (lexical : AreLexical (l :: tokens))
    (opens : l.kind = .leftBracket)
    (read : (array fuel).run.run tokens = (.ok node, rest)) :
    (primary (fuel + 1)).run.run (l :: tokens) = (suffixes fuel node).run.run rest := by
  rw [primary, accept_then lexical opens ⟨_, rfl, rfl⟩, run_bind_ok read]

private theorem primary_of_object (lexical : AreLexical (l :: tokens)) (opens : l.kind = .leftBrace)
    (read : (object fuel).run.run tokens = (.ok node, rest)) :
    (primary (fuel + 1)).run.run (l :: tokens) = (suffixes fuel node).run.run rest := by
  rw [primary, accept_else .leftBracket lexical (ne_head opens (by decide)) ⟨_, rfl, rfl⟩,
    accept_then lexical opens ⟨_, rfl, rfl⟩, run_bind_ok read]

private theorem primary_of_atom (lexical : AreLexical (token :: rest))
    (noBracket : token.kind ≠ .leftBracket)
    (noBrace : token.kind ≠ .leftBrace) (read : atom.run.run (token :: rest) = (.ok node, rest)) :
    (primary (fuel + 1)).run.run (token :: rest) = (suffixes fuel node).run.run rest := by
  rw [primary, accept_else .leftBracket lexical (ne_head rfl noBracket) ⟨_, rfl, rfl⟩,
    accept_else .leftBrace lexical (ne_head rfl noBrace) ⟨_, rfl, rfl⟩, run_bind_ok read]

private theorem suffixes_field (lexical : AreLexical (m :: token :: rest)) (mark : m.kind = .dot)
    (is : token.kind = .identifier) : (suffixes (fuel + 1) a).run.run (m :: token :: rest) =
      (suffixes fuel (.member a (.identifier token.text) false)).run.run rest := by
  rw [suffixes, accept_then lexical mark ⟨_, rfl, rfl⟩, run_bind_ok (identifier_hit is)]

private theorem suffixes_index (lexical : AreLexical (l :: tokens))
    (behind : AreLexical (r :: rest))
    (opens : l.kind = .leftBracket) (closes : r.kind = .rightBracket)
    (read : (assignment fuel).run.run tokens = (.ok b, r :: rest)) :
    (suffixes (fuel + 1) a).run.run (l :: tokens) = (suffixes fuel (.member a b true)).run.run rest := by
  rw [suffixes, accept_else .dot lexical (ne_head opens (by decide)) ⟨_, rfl, rfl⟩,
    accept_then lexical opens ⟨_, rfl, rfl⟩, run_bind_ok read, run_bind_ok (consume_hit behind closes ⟨_, rfl, rfl⟩)]

private theorem suffixes_call (lexical : AreLexical (l :: tokens)) (behind : AreLexical (r :: rest))
    (opens : l.kind = .leftParen) (closes : r.kind = .rightParen)
    (read : (arguments fuel).run.run tokens = (.ok as, r :: rest)) :
    (suffixes (fuel + 1) a).run.run (l :: tokens) = (suffixes fuel (.call a as)).run.run rest := by
  rw [suffixes, accept_else .dot lexical (ne_head opens (by decide)) ⟨_, rfl, rfl⟩,
    accept_else .leftBracket lexical (ne_head opens (by decide)) ⟨_, rfl, rfl⟩,
    accept_then lexical opens ⟨_, rfl, rfl⟩, run_bind_ok read, run_bind_ok (consume_hit behind closes ⟨_, rfl, rfl⟩)]

private theorem suffixes_end (lexical : AreLexical rest) (ends : Ends rest) :
    (suffixes (fuel + 1) a).run.run rest = (.ok a, rest) := by
  rw [suffixes, accept_else .dot lexical (fun token first => (ends token first).1) ⟨_, rfl, rfl⟩,
    accept_else .leftBracket lexical (fun token first => (ends token first).2.1) ⟨_, rfl, rfl⟩,
    accept_else .leftParen lexical (fun token first => (ends token first).2.2) ⟨_, rfl, rfl⟩]
  rfl

private theorem assignment_alone (behind : AreLexical rest)
    (noMark : ∀ token ∈ rest.head?, token.kind ≠ .assign)
    (read : (primary fuel).run.run tokens = (.ok a, rest)) :
    (assignment (fuel + 1)).run.run tokens = (.ok a, rest) := by
  rw [assignment, run_bind_ok read, accept_else .assign behind noMark ⟨_, rfl, rfl⟩]
  rfl

private theorem assignment_both (behind : AreLexical (m :: us)) (mark : m.kind = .assign)
    (left : (primary fuel).run.run tokens = (.ok a, m :: us)) (right : (primary fuel).run.run us = (.ok b, rest)) :
    (assignment (fuel + 1)).run.run tokens = (.ok (.assignment a b), rest) := by
  rw [assignment, run_bind_ok left, accept_then behind mark ⟨_, rfl, rfl⟩, run_bind_ok right]
  rfl

private theorem array_of_elements (behind : AreLexical (r :: rest))
    (closes : r.kind = .rightBracket)
    (read : (elements fuel).run.run tokens = (.ok as, r :: rest)) :
    (array (fuel + 1)).run.run tokens = (.ok (.array as), rest) := by
  rw [array, run_bind_ok read, run_bind_ok (consume_hit behind closes ⟨_, rfl, rfl⟩)]
  rfl

theorem elements_none (lexical : AreLexical (r :: rest)) (closes : r.kind = .rightBracket) :
    (elements (fuel + 1)).run.run (r :: rest) = (.ok [], r :: rest) := by
  rw [elements, run_bind_ok (sees_hit lexical closes ⟨_, rfl, rfl⟩), if_pos rfl]
  rfl

section

variable (lexical : AreLexical tokens) (isnt : ∀ token ∈ tokens.head?, token.kind ≠ .rightBracket)
include lexical isnt

private theorem elements_last (behind : AreLexical rest)
    (noComma : ∀ token ∈ rest.head?, token.kind ≠ .comma)
    (read : (assignment fuel).run.run tokens = (.ok a, rest)) :
    (elements (fuel + 1)).run.run tokens = (.ok [a], rest) := by
  rw [elements, run_bind_ok (sees_miss lexical isnt ⟨_, rfl, rfl⟩), if_neg Bool.false_ne_true, run_bind_ok read,
    accept_else .comma behind noComma ⟨_, rfl, rfl⟩]
  rfl

theorem elements_more (behind : AreLexical (m :: us)) (mark : m.kind = .comma)
    (read : (assignment fuel).run.run tokens = (.ok a, m :: us))
    (others : (elements fuel).run.run us = (.ok as, rest)) :
    (elements (fuel + 1)).run.run tokens = (.ok (a :: as), rest) := by
  rw [elements, run_bind_ok (sees_miss lexical isnt ⟨_, rfl, rfl⟩), if_neg Bool.false_ne_true, run_bind_ok read,
    accept_then behind mark ⟨_, rfl, rfl⟩, run_bind_ok others]
  rfl

end

private theorem arguments_none (lexical : AreLexical (r :: rest)) (closes : r.kind = .rightParen) :
    (arguments (fuel + 1)).run.run (r :: rest) = (.ok [], r :: rest) := by
  rw [arguments, run_bind_ok (sees_hit lexical closes ⟨_, rfl, rfl⟩), if_pos rfl]
  rfl

private theorem arguments_some (lexical : AreLexical tokens)
    (isnt : ∀ token ∈ tokens.head?, token.kind ≠ .rightParen) :
    (arguments (fuel + 1)).run.run tokens = (someArguments fuel).run.run tokens := by
  rw [arguments, run_bind_ok (sees_miss lexical isnt ⟨_, rfl, rfl⟩), if_neg Bool.false_ne_true]

private theorem someArguments_last (behind : AreLexical rest)
    (noComma : ∀ token ∈ rest.head?, token.kind ≠ .comma)
    (read : (assignment fuel).run.run tokens = (.ok a, rest)) :
    (someArguments (fuel + 1)).run.run tokens = (.ok [a], rest) := by
  rw [someArguments, run_bind_ok read, accept_else .comma behind noComma ⟨_, rfl, rfl⟩]
  rfl

private theorem someArguments_more (behind : AreLexical (m :: us)) (mark : m.kind = .comma)
    (read : (assignment fuel).run.run tokens = (.ok a, m :: us))
    (others : (someArguments fuel).run.run us = (.ok as, rest)) :
    (someArguments (fuel + 1)).run.run tokens = (.ok (a :: as), rest) := by
  rw [someArguments, run_bind_ok read, accept_then behind mark ⟨_, rfl, rfl⟩, run_bind_ok others]
  rfl

private theorem object_none (lexical : AreLexical (r :: rest)) (closes : r.kind = .rightBrace) :
    (object (fuel + 1)).run.run (r :: rest) = (.ok (.object []), rest) := by
  rw [object, accept_then lexical closes ⟨_, rfl, rfl⟩]
  rfl

private theorem object_of_properties (lexical : AreLexical tokens) (behind : AreLexical (r :: rest))
    (isnt : ∀ token ∈ tokens.head?, token.kind ≠ .rightBrace) (closes : r.kind = .rightBrace)
    (read : (properties fuel).run.run tokens = (.ok as, r :: rest)) :
    (object (fuel + 1)).run.run tokens = (.ok (.object as), rest) := by
  rw [object, accept_else .rightBrace lexical isnt ⟨_, rfl, rfl⟩, run_bind_ok read,
    run_bind_ok (consume_hit behind closes ⟨_, rfl, rfl⟩)]
  rfl

section

variable {k : Token} {key : Node} (lexical : AreLexical (m :: tokens)) (is : k.IsKey key) (mark : m.kind = .colon)
include lexical is mark

private theorem properties_last (behind : AreLexical rest)
    (noComma : ∀ token ∈ rest.head?, token.kind ≠ .comma)
    (read : (assignment fuel).run.run tokens = (.ok a, rest)) :
    (properties (fuel + 1)).run.run (k :: m :: tokens) = (.ok [.property key a], rest) := by
  rw [properties, run_bind_ok (key_hit is), run_bind_ok (consume_hit lexical mark ⟨_, rfl, rfl⟩), run_bind_ok read,
    accept_else .comma behind noComma ⟨_, rfl, rfl⟩]
  rfl

private theorem properties_more (behind : AreLexical (l :: us)) (next : l.kind = .comma)
    (read : (assignment fuel).run.run tokens = (.ok a, l :: us))
    (others : (properties fuel).run.run us = (.ok as, rest)) :
    (properties (fuel + 1)).run.run (k :: m :: tokens) = (.ok (.property key a :: as), rest) := by
  rw [properties, run_bind_ok (key_hit is), run_bind_ok (consume_hit lexical mark ⟨_, rfl, rfl⟩), run_bind_ok read,
    accept_then behind next ⟨_, rfl, rfl⟩, run_bind_ok others]
  rfl

end

/-! Whole phrases. -/

/-- With fuel enough for its tokens, a phrase is read from its spelling, whatever stands behind. In front of its
suffixes a primary expression is read up to a point; the fuel that is left is enough for all that can follow. -/
def IsRead (ts : List Token) : Phrase → Prop
  | .expression a => ∀ fuel rest, 4 * ts.length + 2 ≤ fuel → AreLexical (ts ++ rest) → Ends rest →
      (∀ token ∈ rest.head?, token.kind ≠ .assign) → (assignment fuel).run.run (ts ++ rest) = (.ok a, rest)
  | .primary a => ∀ fuel rest, 4 * ts.length ≤ fuel → AreLexical (ts ++ rest) → ∃ left,
      fuel ≤ left + ts.length ∧ (primary fuel).run.run (ts ++ rest) = (suffixes left a).run.run rest
  | .items as => ∀ fuel r rest, 4 * ts.length + 3 ≤ fuel → AreLexical (ts ++ r :: rest) →
      (r.kind = .rightParen → (someArguments fuel).run.run (ts ++ r :: rest) = (.ok as, r :: rest)) ∧
      (r.kind = .rightBracket → (elements fuel).run.run (ts ++ r :: rest) = (.ok as, r :: rest)) ∧
      (r.kind = .comma → (∃ closing others, rest = closing :: others ∧ closing.kind = .rightBracket) →
        (elements fuel).run.run (ts ++ r :: rest) = (.ok as, rest))
  | .properties ps => ∀ fuel r rest, 4 * ts.length + 3 ≤ fuel → AreLexical (ts ++ r :: rest) →
      r.kind = .rightBrace → (properties fuel).run.run (ts ++ r :: rest) = (.ok ps, r :: rest)

theorem ends_cons {kind : TokenKind} (is : token.kind = kind) (noPoint : kind ≠ .dot) (noBracket : kind ≠ .leftBracket)
    (noParen : kind ≠ .leftParen) : Ends (token :: rest) := by
  rintro _ ⟨⟩
  rw [is]
  exact ⟨noPoint, noBracket, noParen⟩

/-- A primary expression with nothing behind it that goes on with it. -/
theorem primary_of_isRead (read : IsRead ts (.primary a)) (enough : 4 * ts.length + 1 ≤ fuel)
    (lexical : AreLexical (ts ++ rest)) (ends : Ends rest) : (primary fuel).run.run (ts ++ rest) = (.ok a, rest) := by
  obtain ⟨left, few, whole⟩ := read fuel rest (by omega) lexical
  obtain ⟨left, rfl⟩ := Nat.exists_eq_add_one_of_ne_zero (show left ≠ 0 by omega)
  rw [whole, suffixes_end (areLexical_append.mp lexical).2 ends]

theorem isRead_of_atom (noBracket : token.kind ≠ .leftBracket) (noBrace : token.kind ≠ .leftBrace)
    (read : ∀ rest, atom.run.run (token :: rest) = (.ok a, rest)) : IsRead [token] (.primary a) := by
  intro fuel rest enough lexical
  rw [List.length_singleton] at enough
  obtain ⟨fuel, rfl⟩ := Nat.exists_eq_add_one_of_ne_zero (show fuel ≠ 0 by omega)
  exact ⟨fuel, Nat.le_refl _, primary_of_atom lexical noBracket noBrace (read rest)⟩

private theorem isRead_assignment (mark : m.kind = .assign) (left : IsRead ts (.primary a))
    (right : IsRead us (.primary b)) :
    IsRead (ts ++ m :: us) (.expression (.assignment a b)) := by
  intro fuel rest enough lexical ends _
  rw [List.length_append, List.length_cons] at enough
  rw [List.append_assoc, List.cons_append] at lexical ⊢
  obtain ⟨fuel, rfl⟩ := Nat.exists_eq_add_one_of_ne_zero (show fuel ≠ 0 by omega)
  have behind := (areLexical_append.mp lexical).2
  exact assignment_both behind mark
    (primary_of_isRead left (by omega) lexical (ends_cons mark nofun nofun nofun))
    (primary_of_isRead right (by omega) (areLexical_cons.mp behind).2 ends)

theorem isRead_array (opens : l.kind = .leftBracket) (closes : r.kind = .rightBracket)
    (read : ∀ fuel rest, 4 * ts.length + 3 ≤ fuel → AreLexical (ts ++ r :: rest) →
      (elements fuel).run.run (ts ++ r :: rest) = (.ok as, r :: rest)) :
    IsRead (l :: (ts ++ [r])) (.primary (.array as)) := by
  intro fuel rest enough lexical
  rw [List.length_cons, List.length_append, List.length_singleton] at enough
  rw [List.cons_append, List.append_assoc, List.singleton_append] at lexical ⊢
  obtain ⟨fuel, rfl⟩ := Nat.exists_eq_add_of_le' (show 2 ≤ fuel by omega)
  have inside := (areLexical_cons.mp lexical).2
  have elements := array_of_elements (areLexical_append.mp inside).2 closes (read fuel rest (by omega) inside)
  exact ⟨fuel + 1, by rw [List.length_cons]; omega, primary_of_array lexical opens elements⟩

theorem isRead_object (opens : l.kind = .leftBrace)
    (read : ∀ fuel rest, 4 * ts.length + 4 ≤ fuel → AreLexical (ts ++ r :: rest) →
      (object fuel).run.run (ts ++ r :: rest) = (.ok node, rest)) :
    IsRead (l :: (ts ++ [r])) (.primary node) := by
  intro fuel rest enough lexical
  rw [List.length_cons, List.length_append, List.length_singleton] at enough
  rw [List.cons_append, List.append_assoc, List.singleton_append] at lexical ⊢
  obtain ⟨fuel, rfl⟩ := Nat.exists_eq_add_one_of_ne_zero (show fuel ≠ 0 by omega)
  have inside := (areLexical_cons.mp lexical).2
  exact ⟨fuel, by rw [List.length_cons]; omega, primary_of_object lexical opens (read fuel rest (by omega) inside)⟩

/-- One more suffix, if it is read with the fuel that is left for it. -/
theorem isRead_suffix (subject : IsRead ts (.primary a)) (some_ : us ≠ [])
    (read : ∀ fuel rest, 4 * us.length ≤ fuel + 1 → AreLexical (us ++ rest) →
      (suffixes (fuel + 1) a).run.run (us ++ rest) = (suffixes fuel b).run.run rest) :
    IsRead (ts ++ us) (.primary b) := by
  intro fuel rest enough lexical
  have positive := List.length_pos_iff.mpr some_
  rw [List.length_append] at enough
  rw [List.append_assoc] at lexical ⊢
  obtain ⟨left, few, whole⟩ := subject fuel (us ++ rest) (by omega) lexical
  obtain ⟨left, rfl⟩ := Nat.exists_eq_add_one_of_ne_zero (show left ≠ 0 by omega)
  refine ⟨left, by rw [List.length_append]; omega, ?_⟩
  rw [whole, read left rest (by omega) (areLexical_append.mp lexical).2]

private theorem isRead_index (opens : l.kind = .leftBracket) (closes : r.kind = .rightBracket)
    (subject : IsRead ts (.primary a)) (key : IsRead us (.expression b)) :
    IsRead (ts ++ l :: (us ++ [r])) (.primary (.member a b true)) := by
  refine isRead_suffix subject (List.cons_ne_nil _ _) fun fuel rest enough lexical => ?_
  rw [List.length_cons, List.length_append, List.length_singleton] at enough
  rw [List.cons_append, List.append_assoc, List.singleton_append] at lexical ⊢
  have inside := (areLexical_cons.mp lexical).2
  exact suffixes_index lexical (areLexical_append.mp inside).2 opens closes
    (key fuel (r :: rest) (by omega) inside (ends_cons closes nofun nofun nofun) (ne_head closes nofun))

theorem isRead_call (opens : l.kind = .leftParen) (closes : r.kind = .rightParen) (callee : IsRead ts (.primary a))
    (read : ∀ fuel rest, 4 * us.length + 4 ≤ fuel → AreLexical (us ++ r :: rest) →
      (arguments fuel).run.run (us ++ r :: rest) = (.ok as, r :: rest)) :
    IsRead (ts ++ l :: (us ++ [r])) (.primary (.call a as)) := by
  refine isRead_suffix callee (List.cons_ne_nil _ _) fun fuel rest enough lexical => ?_
  rw [List.length_cons, List.length_append, List.length_singleton] at enough
  rw [List.cons_append, List.append_assoc, List.singleton_append] at lexical ⊢
  have inside := (areLexical_cons.mp lexical).2
  exact suffixes_call lexical (areLexical_append.mp inside).2 opens closes (read fuel rest (by omega) inside)

private theorem isRead_item (spelled : Spells ts (.expression a))
    (read : IsRead ts (.expression a)) :
    IsRead ts (.items [a]) := by
  intro fuel r rest enough lexical
  obtain ⟨fuel, rfl⟩ := Nat.exists_eq_add_one_of_ne_zero (show fuel ≠ 0 by omega)
  have behind := (areLexical_append.mp lexical).2
  have whole (ends : Ends (r :: rest)) (noMark : ∀ token ∈ (r :: rest).head?, token.kind ≠ .assign) :=
    read fuel (r :: rest) (by omega) lexical ends noMark
  have isnt : ∀ token ∈ (ts ++ r :: rest).head?, token.kind ≠ .rightBracket :=
    ne_of_begins spelled (by simp [Begins])
  refine ⟨fun closes => ?_, fun closes => ?_, fun mark closing => ?_⟩
  · exact someArguments_last behind (ne_head closes nofun)
      (whole (ends_cons closes nofun nofun nofun) (ne_head closes nofun))
  · exact elements_last lexical isnt behind (ne_head closes nofun)
      (whole (ends_cons closes nofun nofun nofun) (ne_head closes nofun))
  · -- The comma is taken for one between elements, and then there is none behind it.
    obtain ⟨closing, others, rfl, closes⟩ := closing
    obtain ⟨fuel, rfl⟩ := Nat.exists_eq_add_one_of_ne_zero (show fuel ≠ 0 by omega)
    exact elements_more lexical isnt behind mark
      (whole (ends_cons mark nofun nofun nofun) (ne_head mark nofun))
      (elements_none (areLexical_cons.mp behind).2 closes)

private theorem isRead_items (mark : m.kind = .comma) (spelled : Spells ts (.expression a))
    (first : IsRead ts (.expression a))
    (others : IsRead us (.items as)) : IsRead (ts ++ m :: us) (.items (a :: as)) := by
  intro fuel r rest enough lexical
  rw [List.length_append, List.length_cons] at enough
  rw [List.append_assoc, List.cons_append] at lexical ⊢
  obtain ⟨fuel, rfl⟩ := Nat.exists_eq_add_one_of_ne_zero (show fuel ≠ 0 by omega)
  have behind := (areLexical_append.mp lexical).2
  have whole := first fuel (m :: (us ++ r :: rest)) (by omega) lexical (ends_cons mark nofun nofun nofun)
    (ne_head mark nofun)
  have isnt : ∀ token ∈ (ts ++ m :: (us ++ r :: rest)).head?, token.kind ≠ .rightBracket :=
    ne_of_begins spelled (by simp [Begins])
  obtain ⟨paren, bracket, comma⟩ := others fuel r rest (by omega) (areLexical_cons.mp behind).2
  exact ⟨fun closes => someArguments_more behind mark whole (paren closes),
    fun closes => elements_more lexical isnt behind mark whole (bracket closes),
    fun trailing closing => elements_more lexical isnt behind mark whole (comma trailing closing)⟩

private theorem isRead_property {k : Token} {key : Node} (is : k.IsKey key) (mark : m.kind = .colon)
    (read : IsRead ts (.expression a)) : IsRead (k :: m :: ts) (.properties [.property key a]) := by
  intro fuel r rest enough lexical closes
  rw [List.length_cons, List.length_cons] at enough
  obtain ⟨fuel, rfl⟩ := Nat.exists_eq_add_one_of_ne_zero (show fuel ≠ 0 by omega)
  have colon := (areLexical_cons.mp lexical).2
  have value := (areLexical_cons.mp colon).2
  exact properties_last colon is mark (areLexical_append.mp value).2 (ne_head closes nofun)
    (read fuel (r :: rest) (by omega) value (ends_cons closes nofun nofun nofun) (ne_head closes nofun))

private theorem isRead_properties {k : Token} {key : Node} (is : k.IsKey key)
    (mark : m.kind = .colon)
    (read : IsRead ts (.expression a)) (next : l.kind = .comma) (others : IsRead us (.properties as)) :
    IsRead (k :: m :: (ts ++ l :: us)) (.properties (.property key a :: as)) := by
  intro fuel r rest enough lexical closes
  rw [List.length_cons, List.length_cons, List.length_append, List.length_cons] at enough
  rw [List.cons_append, List.cons_append, List.append_assoc, List.cons_append] at lexical ⊢
  obtain ⟨fuel, rfl⟩ := Nat.exists_eq_add_one_of_ne_zero (show fuel ≠ 0 by omega)
  have colon := (areLexical_cons.mp lexical).2
  have value := (areLexical_cons.mp colon).2
  have behind := (areLexical_append.mp value).2
  exact properties_more colon is mark behind next
    (read fuel (l :: (us ++ r :: rest)) (by omega) value (ends_cons next nofun nofun nofun) (ne_head next nofun))
    (others fuel r rest (by omega) (areLexical_cons.mp behind).2 closes)

private theorem isRead_of_spells (spelled : Spells ts phrase) : IsRead ts phrase := by
  induction spelled with
  | expression alone hypothesis =>
    intro fuel rest enough lexical ends noMark
    obtain ⟨fuel, rfl⟩ := Nat.exists_eq_add_one_of_ne_zero (show fuel ≠ 0 by omega)
    exact assignment_alone (areLexical_append.mp lexical).2 noMark
      (primary_of_isRead hypothesis (by omega) lexical ends)
  | assignment mark _ _ left right => exact isRead_assignment mark left right
  | reserved is reserved =>
    exact isRead_of_atom (by rw [is]; nofun) (by rw [is]; nofun) fun _ => atom_of_reserved is reserved
  | name is free => exact isRead_of_atom (by rw [is]; nofun) (by rw [is]; nofun) fun _ => atom_of_name is free
  | literal is =>
    refine isRead_of_atom ?_ ?_ fun _ => atom_of_literal is
    · rcases is with is | is <;> rw [is] <;> nofun
    · rcases is with is | is <;> rw [is] <;> nofun
  | @emptyArray l r opens closes =>
    change IsRead (l :: ([] ++ [r])) _
    refine isRead_array opens closes fun fuel rest enough lexical => ?_
    obtain ⟨fuel, rfl⟩ := Nat.exists_eq_add_one_of_ne_zero (show fuel ≠ 0 by omega)
    exact elements_none lexical closes
  | array opens closes _ hypothesis =>
    exact isRead_array opens closes fun fuel rest enough lexical => (hypothesis fuel _ rest enough lexical).2.1 closes
  | @arrayWithComma ts as l m r opens closes mark _ hypothesis =>
    rw [show ts ++ [m, r] = (ts ++ [m]) ++ [r] by simp]
    refine isRead_array opens closes fun fuel rest enough lexical => ?_
    rw [List.length_append, List.length_singleton] at enough
    rw [List.append_assoc, List.singleton_append] at lexical ⊢
    exact (hypothesis fuel m (r :: rest) (by omega) lexical).2.2 mark ⟨r, rest, rfl, closes⟩
  | @emptyObject l r opens closes =>
    change IsRead (l :: ([] ++ [r])) _
    refine isRead_object opens fun fuel rest enough lexical => ?_
    obtain ⟨fuel, rfl⟩ := Nat.exists_eq_add_one_of_ne_zero (show fuel ≠ 0 by omega)
    exact object_none lexical closes
  | object opens closes spelled hypothesis =>
    refine isRead_object opens fun fuel rest enough lexical => ?_
    obtain ⟨fuel, rfl⟩ := Nat.exists_eq_add_one_of_ne_zero (show fuel ≠ 0 by omega)
    exact object_of_properties lexical (areLexical_append.mp lexical).2 (ne_of_begins spelled (by simp [Begins])) closes
      (hypothesis fuel _ rest (by omega) lexical closes)
  | field mark is _ hypothesis =>
    exact isRead_suffix hypothesis (List.cons_ne_nil _ _) fun fuel rest _ lexical => suffixes_field lexical mark is
  | index opens closes _ _ subject key => exact isRead_index opens closes subject key
  | @emptyCall ts a l r opens closes _ hypothesis =>
    change IsRead (ts ++ l :: ([] ++ [r])) _
    refine isRead_call opens closes hypothesis fun fuel rest enough lexical => ?_
    obtain ⟨fuel, rfl⟩ := Nat.exists_eq_add_one_of_ne_zero (show fuel ≠ 0 by omega)
    exact arguments_none lexical closes
  | call opens closes _ spelled callee items =>
    refine isRead_call opens closes callee fun fuel rest enough lexical => ?_
    obtain ⟨fuel, rfl⟩ := Nat.exists_eq_add_one_of_ne_zero (show fuel ≠ 0 by omega)
    rw [arguments_some lexical (ne_of_begins spelled (by simp [Begins]))]
    exact (items fuel _ rest (by omega) lexical).1 closes
  | item alone hypothesis => exact isRead_item alone hypothesis
  | items mark spelled _ first others => exact isRead_items mark spelled first others
  | property is mark _ hypothesis => exact isRead_property is mark hypothesis
  | properties is mark _ next _ first others => exact isRead_properties is mark first next others

theorem kind_of_literal (is : token.IsLiteral) : token.kind ≠ .endOfInput := by
  rcases is with is | is <;> rw [is] <;> nofun

theorem kind_of_key (is : token.IsKey node) : token.kind ≠ .endOfInput := by
  cases is with
  | name is => rw [is]; nofun
  | literal is => exact kind_of_literal is

theorem kind_of_spells (spelled : Spells ts phrase) : ∀ token ∈ ts, token.kind ≠ .endOfInput := by
  induction spelled with
  | literal is => simp [kind_of_literal is]
  | property is _ _ _ => simp_all [kind_of_key is]
  | properties is _ _ _ _ _ _ => simp_all [kind_of_key is, or_imp]
  | _ => simp_all [or_imp]

/-- What is no end of input was taken from before the only one. -/
theorem exists_behind {body taken rest : List Token} {last : Token} (split : body ++ [last] = taken ++ rest)
    (end_ : last.kind = .endOfInput) (written : ∀ token ∈ taken, token.kind ≠ .endOfInput) :
    ∃ behind, body = taken ++ behind ∧ rest = behind ++ [last] := by
  rcases List.append_eq_append_iff.mp split with ⟨more, rfl, behind⟩ | ⟨behind, rfl, rfl⟩
  · cases more with
    | nil => exact ⟨[], by simp, behind.symm⟩
    | cons first more =>
      cases (List.cons.inj behind).1
      exact absurd end_ (written last (by simp))
  · exact ⟨behind, rfl, rfl⟩

theorem ofTokens_eq_ok_iff {body : List Token} {last : Token} (lexical : AreLexical (body ++ [last]))
    (open_ : ∀ token ∈ body, token.kind ≠ .endOfInput) (end_ : last.kind = .endOfInput) {tree : Node}
    {leftover : Option Token} : Node.ofTokens true (body ++ [last]) = .ok (tree, leftover) ↔
      leftover = none ∧ ∃ a, tree = .program a ∧ Spells body (.expression a) := by
  constructor
  · intro read
    have takes := ofTokens_takes true lexical
    rw [read] at takes
    obtain ⟨taken, rest, a, split, program, spelled, whole⟩ := takes
    obtain ⟨none_, stops⟩ := whole rfl
    obtain ⟨behind, rfl, rfl⟩ := exists_behind split end_ (kind_of_spells spelled)
    cases behind with
    | nil => exact ⟨none_, a, program, by rwa [List.append_nil]⟩
    | cons token behind => exact absurd (stops token rfl) (open_ token (by simp))
  · rintro ⟨rfl, a, rfl, spelled⟩
    have ends : Ends [last] := ends_cons end_ nofun nofun nofun
    have read := isRead_of_spells spelled (enough (body ++ [last])) [last]
      (by rw [enough, List.length_append]; omega) lexical ends (ne_head end_ nofun)
    have nothing : unread [last] = none := unread_eq_none_iff.mpr (by simpa using end_)
    rw [Node.ofTokens, program, run_bind_ok ((run_complete _ _).trans read), run_bind_ok (peek_any _), nothing]
    rfl

end Reader

theorem Token.kind_remark (shift : Nat) (token : Token) : (token.remark shift).kind = token.kind := by
  unfold remark
  split <;> rfl

theorem Token.text_remark (shift : Nat) (token : Token) : (token.remark shift).text = token.text := by
  unfold remark
  split <;> rfl

/-- Each token that a text is divided into has the shape of its kind, and none is the end of input. -/
theorem Divided.shapes {text left : Text} {tokens : List Token} (divided : Divided text tokens left) :
    ∀ token ∈ tokens, token.kind.IsShape token.text ∧ token.kind ≠ .endOfInput := by
  induction divided with
  | done _ => exact List.forall_mem_nil _
  | blank _ _ hypothesis => exact hypothesis
  | token written shape _ _ hypothesis => exact List.forall_mem_cons.mpr ⟨⟨shape, written⟩, hypothesis⟩

/-- The tokens of a source, with the marks of their values moved, are lexical, and end with the end of input. -/
theorem lexical_of_tokenize {source : Text} {tokens : List Token} (marks : Nat)
    (made : tokenize source = .ok tokens) : ∃ body last, tokens.map (Token.remark marks) = body ++ [last] ∧
      last.kind = .endOfInput ∧ (∀ token ∈ body, token.kind ≠ .endOfInput) ∧
      Token.AreLexical (body ++ [last]) := by
  obtain ⟨body, last, left, rfl, end_, empty, divided, _⟩ := divided_of_tokenize made
  have shapes := divided.shapes
  refine ⟨body.map (Token.remark marks), last.remark marks, by rw [List.map_append]; rfl, ?_, ?_, ?_⟩
  · rw [Token.kind_remark, end_]
  · intro token member
    obtain ⟨first, inside, rfl⟩ := List.mem_map.mp member
    rw [Token.kind_remark]
    exact (shapes first inside).2
  · refine List.forall_mem_append.mpr ⟨fun token member => ?_, List.forall_mem_singleton.mpr ?_⟩
    · obtain ⟨first, inside, rfl⟩ := List.mem_map.mp member
      rw [Token.kind_remark, Token.text_remark]
      exact (shapes first inside).1
    · rw [Token.kind_remark, Token.text_remark, end_, empty]
      rfl

theorem Evaluator.exists_spells_of_parse {strict : Bool} {marks : Nat} {source : Text} {tree : Node}
    {leftover : Option Token} (read : parse strict marks source = .ok (tree, leftover)) :
    ∃ tokens taken rest body, tokenize source = .ok tokens ∧ tokens.map (Token.remark marks) = taken ++ rest ∧
      Token.AreLexical (taken ++ rest) ∧ tree = .program body ∧ Spells taken (.expression body) := by
  cases scanned : tokenize source with
  | error failure =>
    rw [parse, scanned] at read
    cases read
  | ok tokens =>
    obtain ⟨body, last, split, _, _, lexical⟩ := lexical_of_tokenize marks scanned
    have takes := Reader.ofTokens_takes strict lexical
    have tokens_ : Node.ofTokens strict (body ++ [last]) = .ok (tree, leftover) := by
      rw [← read, parse, scanned, ← split]
      rfl
    rw [tokens_] at takes
    obtain ⟨taken, rest, whole, same, program, spelled, _⟩ := takes
    rw [same] at lexical split
    exact ⟨tokens, taken, rest, whole, rfl, split, lexical, program, spelled⟩

/-- For the tokens of any source, a strict reader gives a tree exactly where the tokens before the end of input spell
an expression; it gives that expression as a program, no other expression is spelled so, and where none is, the reader
fails at a token that it did not expect. -/
theorem ofTokens_accepts_spellings {source : Text} {tokens : List Token} (marks : Nat)
    (made : tokenize source = .ok tokens) :
    ∃ body last, tokens.map (Token.remark marks) = body ++ [last] ∧ last.kind = .endOfInput ∧
      (∀ token ∈ body, token.kind ≠ .endOfInput) ∧
      (∀ tree leftover, Node.ofTokens true (tokens.map (Token.remark marks)) = .ok (tree, leftover) ↔
        leftover = none ∧ ∃ a, tree = .program a ∧ Spells body (.expression a)) ∧
      (∀ a b, Spells body (.expression a) → Spells body (.expression b) → a = b) ∧
      ((¬ ∃ a, Spells body (.expression a)) → ∃ expected position,
        Node.ofTokens true (tokens.map (Token.remark marks)) = .error (.unexpectedToken expected position)) := by
  obtain ⟨body, last, split, end_, open_, lexical⟩ := lexical_of_tokenize marks made
  rw [split]
  have accepts {tree : Node} {leftover : Option Token} : Node.ofTokens true (body ++ [last]) = .ok (tree, leftover) ↔
      leftover = none ∧ ∃ a, tree = .program a ∧ Spells body (.expression a) :=
    Reader.ofTokens_eq_ok_iff lexical open_ end_
  refine ⟨body, last, rfl, end_, open_, fun _ _ => accepts, fun a b first second => ?_, fun unspelled => ?_⟩
  · have one := accepts.mpr ⟨rfl, a, rfl, first⟩
    have other := accepts.mpr ⟨rfl, b, rfl, second⟩
    cases one.symm.trans other
    rfl
  · have takes := Reader.ofTokens_takes true lexical
    cases read : Node.ofTokens true (body ++ [last]) with
    | error failure =>
      rw [read] at takes
      obtain ⟨expected, position, rfl⟩ := takes
      exact ⟨expected, position, rfl⟩
    | ok result =>
      obtain ⟨_, a, _, spelled⟩ := accepts.mp read
      exact absurd ⟨a, spelled⟩ unspelled

/-- An array with a comma behind its last element is a spelling of the array. -/
theorem spells_array_with_comma :
    let tokens : List Token := [⟨.leftBracket, Text.of "[", .null, ⟨1, 1⟩⟩, ⟨.identifier, Text.of "a", .null, ⟨1, 2⟩⟩,
      ⟨.comma, Text.of ",", .null, ⟨1, 3⟩⟩, ⟨.rightBracket, Text.of "]", .null, ⟨1, 4⟩⟩,
      ⟨.endOfInput, [], .null, ⟨1, 5⟩⟩]
    tokenize (Text.of "[a,]") = .ok tokens ∧ ∃ body last, tokens = body ++ [last] ∧
      Spells body (.expression (.array [.identifier (Text.of "a")])) := by
  intro tokens
  have made : tokenize (Text.of "[a,]") = .ok tokens := rfl
  refine ⟨made, ?_⟩
  obtain ⟨body, last, split, _, _, accepts, _⟩ := ofTokens_accepts_spellings 0 made
  have read : Node.ofTokens true (tokens.map (Token.remark 0)) =
      .ok (.program (.array [.identifier (Text.of "a")]), none) := rfl
  obtain ⟨_, a, same, spelled⟩ := (accepts _ _).mp read
  cases same
  exact ⟨body, last, split, spelled⟩

end GuardedExpr

import GuardedExpr.Proofs.Code.NodeOccurrences
import GuardedExpr.Proofs.Node.ReaderCompleteness

/-!
What all nodes of a tree share with the tree. The names in the tree of a source are words, so that none of them means
a position; and where a tree has no assignment, none occurs in it.
-/

namespace GuardedExpr

private theorem CodePoint.not_isFigure_of_startsName {c : CodePoint} (starts : c.startsName) :
    c.isFigure = false := by
  have zeros : ∀ first ∈ Digit.zeros, first = 48 ∨ 123 ≤ first := by decide
  have figures : ∀ run ∈ Digit.figures, 123 ≤ run.1 := by decide
  have bounds : (c.val < 48 ∨ 58 ≤ c.val) ∧ c.val < 123 := by
    simp only [startsName, Bool.or_eq_true, isLetter_iff, decide_eq_true_eq] at starts
    rcases starts with (letter | rfl) | rfl
    · omega
    · decide
    · decide
  have noDigit : c.decimal? = none := by
    rw [decimal?, Option.map_eq_none_iff, List.find?_eq_none]
    intro first member
    have low := zeros first member
    simp only [Bool.and_eq_true, decide_eq_true_eq]
    omega
  have noFigure : (Digit.figures.any fun run => run.1 ≤ c.val && c.val ≤ run.2) = false := by
    refine List.any_eq_false.mpr fun run member => ?_
    have low := figures run member
    simp only [Bool.and_eq_true, decide_eq_true_eq]
    omega
  rw [isFigure, noDigit, noFigure]
  rfl

theorem Value.position?_of_isName {name : Text} (word : Lexeme.IsName name) :
    (Value.text name).position? = .ok none := by
  obtain ⟨c, rest, rfl, starts, -⟩ := word
  simp [Value.position?, CodePoint.not_isFigure_of_startsName starts]

namespace Node

def parts : Node → List Node
  | .array elements => elements
  | .object properties => properties.map propertyValue
  | .member child index true => [child, index]
  | .member child _ false => [child]
  | .call callee arguments => callee :: arguments
  | .assignment left right => [left, right]
  | _ => []

private theorem items_sub_parts (node : Node) : ∀ item ∈ node.items, item ∈ node.parts := by
  cases node with
  | array _ | object _ => exact fun _ member => member
  | call _ _ => exact fun _ member => List.mem_cons_of_mem _ member
  | _ => exact fun _ member => nomatch member

/-- What passes from nodes to their parts passes from a tree to all that occurs in it. -/
theorem Occurs.inherits {h : Heap} {root node : Node} {create : Bool} {free : Nat} {property : Node → Prop}
    (down : ∀ outer part, part ∈ outer.parts → property outer → property part)
    (occurs : root.Occurs h node create free) (whole : property root) : property node := by
  induction occurs with
  | root => exact whole
  | @item outer node _ _ _ _ before behind _ _ _ items _ _ ih =>
    exact down outer node (items_sub_parts outer node (by simp [items])) ih
  | @subject child index computed _ _ _ ih =>
    exact down _ child (by cases computed <;> simp [parts]) ih
  | @key child index _ _ _ _ _ ih => exact down _ index (by simp [parts]) ih
  | @callee callee arguments _ _ _ ih => exact down _ callee (by simp [parts]) ih
  | @targetSubject child index right computed _ _ _ ih =>
    exact down (.member child index computed) child (by cases computed <;> simp [parts])
      (down _ _ (by simp [parts]) ih)
  | @targetKey child index right _ _ _ _ _ ih =>
    exact down (.member child index true) index (by simp [parts]) (down _ _ (by simp [parts]) ih)
  | @source left right _ _ _ _ _ ih => exact down _ right (by simp [parts]) ih

mutual

def assigns : Node → Bool
  | .program body => body.assigns
  | .array elements => anyAssigns elements
  | .object properties => anyAssigns properties
  | .property key value => key.assigns || value.assigns
  | .member child index _ => child.assigns || index.assigns
  | .call callee arguments => callee.assigns || anyAssigns arguments
  | .assignment _ _ => true
  | _ => false

def anyAssigns : List Node → Bool
  | [] => false
  | node :: nodes => node.assigns || anyAssigns nodes

end

theorem anyAssigns_eq_false_iff {nodes : List Node} :
    anyAssigns nodes = false ↔ ∀ node ∈ nodes, node.assigns = false := by
  induction nodes with
  | nil => simp [anyAssigns]
  | cons node nodes ih => simp [anyAssigns, ih]

private theorem assigns_of_part (outer part : Node) (member : part ∈ outer.parts)
    (still : outer.assigns = false) :
    part.assigns = false := by
  cases outer with
  | array elements => exact anyAssigns_eq_false_iff.mp still part member
  | object properties =>
    obtain ⟨property, inside, rfl⟩ := List.mem_map.mp member
    have whole := anyAssigns_eq_false_iff.mp still property inside
    cases property with
    | property key value => exact (Bool.or_eq_false_iff.mp whole).2
    | _ => exact whole
  | member child index computed =>
    obtain ⟨one, other⟩ := Bool.or_eq_false_iff.mp still
    cases computed <;> simp only [parts, List.mem_cons, List.not_mem_nil, or_false] at member
    · exact member ▸ one
    · rcases member with rfl | rfl
      · exact one
      · exact other
  | call callee arguments =>
    obtain ⟨one, others⟩ := Bool.or_eq_false_iff.mp still
    rcases List.mem_cons.mp member with rfl | given
    · exact one
    · exact anyAssigns_eq_false_iff.mp others part given
  | assignment left right => cases still
  | _ => cases member

theorem Occurs.assigns_eq_false {h : Heap} {root node : Node} {create : Bool} {free : Nat}
    (occurs : root.Occurs h node create free) (still : root.assigns = false) : node.assigns = false :=
  occurs.inherits assigns_of_part still

mutual

def IsWorded : Node → Prop
  | .program body => body.IsWorded
  | .identifier name => Lexeme.IsName name
  | .array elements => AreWorded elements
  | .object properties => AreWorded properties
  | .property _ value => value.IsWorded
  | .member child index true => child.IsWorded ∧ index.IsWorded
  | .member child _ false => child.IsWorded
  | .call callee arguments => callee.IsWorded ∧ AreWorded arguments
  | .assignment left right => left.IsWorded ∧ right.IsWorded
  | _ => True

def AreWorded : List Node → Prop
  | [] => True
  | node :: nodes => node.IsWorded ∧ AreWorded nodes

end

theorem areWorded_iff {nodes : List Node} : AreWorded nodes ↔ ∀ node ∈ nodes, node.IsWorded := by
  induction nodes with
  | nil => simp [AreWorded]
  | cons node nodes ih => simp [AreWorded, ih]

theorem isWorded_of_part (outer part : Node) (member : part ∈ outer.parts) (worded : outer.IsWorded) :
    part.IsWorded := by
  cases outer with
  | array elements => exact areWorded_iff.mp worded part member
  | object properties =>
    obtain ⟨property, inside, rfl⟩ := List.mem_map.mp member
    have whole := areWorded_iff.mp worded property inside
    cases property <;> exact whole
  | member child index computed =>
    cases computed <;> simp only [parts, List.mem_cons, List.not_mem_nil, or_false] at member
    · exact member ▸ worded
    · rcases member with rfl | rfl
      · exact worded.1
      · exact worded.2
  | call callee arguments =>
    rcases List.mem_cons.mp member with rfl | given
    · exact worded.1
    · exact areWorded_iff.mp worded.2 part given
  | assignment left right =>
    simp only [parts, List.mem_cons, List.not_mem_nil, or_false] at member
    rcases member with rfl | rfl
    · exact worded.1
    · exact worded.2
  | _ => cases member

theorem Occurs.isWorded {h : Heap} {root node : Node} {create : Bool} {free : Nat}
    (occurs : root.Occurs h node create free) (worded : root.IsWorded) : node.IsWorded :=
  occurs.inherits isWorded_of_part worded

end Node

def Phrase.IsWorded : Phrase → Prop
  | .expression node => node.IsWorded
  | .primary node => node.IsWorded
  | .items nodes => Node.AreWorded nodes
  | .properties nodes => Node.AreWorded nodes

open Reader (areLexical_append areLexical_cons)

private theorem isWorded_of_spells {ts : List Token} {phrase : Phrase} (spelled : Spells ts phrase)
    (lexical : Token.AreLexical ts) : phrase.IsWorded := by
  induction spelled with
  | expression _ ih => exact ih lexical
  | @reserved word a is reserved =>
    unfold Node.ofReserved? at reserved
    split_ifs at reserved <;> cases reserved <;> trivial
  | @name word is free =>
    have shape := areLexical_cons.mp lexical
    rw [is] at shape
    exact shape.1
  | literal _ => trivial
  | emptyArray _ _ => trivial
  | emptyObject _ _ => trivial
  | assignment _ _ _ left right =>
    obtain ⟨first, second⟩ := areLexical_append.mp lexical
    exact ⟨left first, right (areLexical_cons.mp second).2⟩
  | array _ _ _ ih => exact ih (areLexical_append.mp (areLexical_cons.mp lexical).2).1
  | arrayWithComma _ _ _ _ ih => exact ih (areLexical_append.mp (areLexical_cons.mp lexical).2).1
  | object _ _ _ ih => exact ih (areLexical_append.mp (areLexical_cons.mp lexical).2).1
  | field _ _ _ ih => exact ih (areLexical_append.mp lexical).1
  | index _ _ _ _ subject key =>
    obtain ⟨first, rest⟩ := areLexical_append.mp lexical
    exact ⟨subject first, key (areLexical_append.mp (areLexical_cons.mp rest).2).1⟩
  | emptyCall _ _ _ ih => exact ⟨ih (areLexical_append.mp lexical).1, trivial⟩
  | call _ _ _ _ callee arguments =>
    obtain ⟨first, rest⟩ := areLexical_append.mp lexical
    exact ⟨callee first, arguments (areLexical_append.mp (areLexical_cons.mp rest).2).1⟩
  | item _ ih => exact ⟨ih lexical, trivial⟩
  | items _ _ _ first others =>
    obtain ⟨head, rest⟩ := areLexical_append.mp lexical
    exact ⟨first head, others (areLexical_cons.mp rest).2⟩
  | property _ _ _ ih => exact ⟨ih (areLexical_cons.mp (areLexical_cons.mp lexical).2).2, trivial⟩
  | properties _ _ _ _ _ first others =>
    obtain ⟨head, rest⟩ := areLexical_append.mp (areLexical_cons.mp (areLexical_cons.mp lexical).2).2
    exact ⟨first head, others (areLexical_cons.mp rest).2⟩

/-- What a source is read as is a program, and the names in it are words. -/
theorem Evaluator.isWorded_of_parse {strict : Bool} {marks : Nat} {source : Text} {tree : Node}
    {leftover : Option Token} (read : parse strict marks source = .ok (tree, leftover)) :
    ∃ body, tree = .program body ∧ body.IsWorded := by
  obtain ⟨_, taken, rest, body, _, _, lexical, rfl, spelled⟩ := exists_spells_of_parse read
  exact ⟨body, rfl, isWorded_of_spells spelled (areLexical_append.mp lexical).1⟩

end GuardedExpr

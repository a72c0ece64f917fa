import GuardedExpr.Node.Tree
import GuardedExpr.Proofs.Code.LegibleListings
import GuardedExpr.Proofs.Text.ScalarDisplays

/-!
Drawings tell expressions apart. The lines of a tree are read back from their indentation, since no label begins with a
space and nothing in a line ends it; and a tree is read back as the expression that it was made of.
-/

namespace GuardedExpr

open Lexeme (span_of_all)

namespace Tree

structure IsLabel (label : Text) : Prop where
  starts : ∃ c rest, label = c :: rest ∧ c ≠ ' '
  line : CodePoint.ofChar '\n' ∉ label
  word : CodePoint.ofChar '\t' ∉ label

def leafKind (label : Text) : Text :=
  if label = Text.of "Literal" then Text.of "VALUE" else Text.of "IDENT"

inductive IsDrawn : Tree → Prop where
  | word {label text : Text} (labelled : IsLabel label) (single : CodePoint.ofChar '\n' ∉ text) :
      IsDrawn (.node label [.leaf (leafKind label) text])
  | branch {label : Text} {children : List Tree} (labelled : IsLabel label)
      (drawn : ∀ child ∈ children, IsDrawn child) : IsDrawn (.node label children)

def margin (depth : Nat) : Text :=
  (List.replicate depth twoSpaces).flatten

def indentation (t : Text) : Nat :=
  (t.takeWhile fun c => c = CodePoint.ofChar ' ').length

variable {tree : Tree} {trees : List Tree} {label : Text} {children : List Tree} {x y : Text} {depth : Nat}

private theorem length_margin (depth : Nat) : (margin depth).length = 2 * depth := by
  induction depth with
  | zero => rfl
  | succ depth hypothesis =>
    rw [margin, List.replicate_succ, List.flatten_cons, List.length_append]
    change 2 + (margin depth).length = 2 * (depth + 1)
    omega

private theorem eq_space_of_mem_margin {c : CodePoint} (member : c ∈ margin depth) :
    c = CodePoint.ofChar ' ' := by
  obtain ⟨piece, inside, found⟩ := List.mem_flatten.mp member
  rw [List.eq_of_mem_replicate inside] at found
  simpa [twoSpaces, Text.of] using found

theorem indentation_line (labelled : IsLabel label) (depth : Nat) (x : Text) :
    indentation (margin depth ++ label ++ x) = 2 * depth := by
  obtain ⟨c, rest, rfl, other⟩ := labelled.starts
  have split := @span_of_all _ (fun c => decide (c = CodePoint.ofChar ' ')) (margin depth) (c :: (rest ++ x))
    (fun d member => decide_eq_true (eq_space_of_mem_margin member))
    (fun d first => by cases first; exact decide_eq_false other)
  rw [List.append_assoc, List.cons_append, indentation, split.1, length_margin]

theorem IsDrawn.ne_leaf (drawn : tree.IsDrawn) (kind text : Text) : tree ≠ .leaf kind text := by
  rintro rfl
  cases drawn

theorem layout_branch (drawn : ∀ child ∈ children, child.IsDrawn) (label : Text) (depth : Nat) :
    layout twoSpaces depth (.node label children) =
      margin depth ++ label ++ CodePoint.ofChar '\n' :: layoutAll twoSpaces (depth + 1) children := by
  have same : layout twoSpaces depth (.node label children) =
      margin depth ++ label ++ Text.of "\n" ++ layoutAll twoSpaces (depth + 1) children := by
    rw [layout]
    · rfl
    · rintro kind text rfl
      exact (drawn _ List.mem_cons_self).ne_leaf kind text rfl
  rw [same, List.append_assoc]
  rfl

theorem layout_word (label kind text : Text) (depth : Nat) :
    layout twoSpaces depth (.node label [.leaf kind text]) =
      margin depth ++ (label ++ CodePoint.ofChar '\t' :: text) ++ CodePoint.ofChar '\n' :: [] := by
  rw [layout]
  simp [margin, Text.of]

theorem IsDrawn.indentation (drawn : tree.IsDrawn) (depth : Nat) (x : Text) :
    indentation (layout twoSpaces depth tree ++ x) = 2 * depth := by
  cases drawn with
  | word labelled _ =>
    rw [layout_word]
    simp only [List.append_assoc]
    rw [← List.append_assoc (margin depth)]
    exact indentation_line labelled depth _
  | branch labelled drawn =>
    rw [layout_branch drawn, List.append_assoc]
    exact indentation_line labelled depth _

theorem append_cons_inj {mark : CodePoint} {front behind : Text} (one : mark ∉ front) (other : mark ∉ behind)
    (same : front ++ mark :: x = behind ++ mark :: y) : front = behind ∧ x = y := by
  have split {t : Text} (none_ : mark ∉ t) (rest : Text) :=
    @span_of_all _ (fun c => decide (c ≠ mark)) t (mark :: rest)
      (fun c member => decide_eq_true fun found => none_ (found ▸ member)) (fun c first => by cases first; simp)
  have first := split one x
  have second := split other y
  rw [same] at first
  exact ⟨first.1.symm.trans second.1, (List.cons.inj (first.2.symm.trans second.2)).2⟩

/-- Two texts that begin with a line under the same margin have the same line there. -/
theorem first_line {line other rest more : Text} (one : CodePoint.ofChar '\n' ∉ line)
    (also : CodePoint.ofChar '\n' ∉ other)
    (same : margin depth ++ line ++ CodePoint.ofChar '\n' :: rest ++ x =
      margin depth ++ other ++ CodePoint.ofChar '\n' :: more ++ y) : line = other ∧ rest ++ x = more ++ y := by
  simp only [List.append_assoc, List.cons_append] at same
  exact append_cons_inj one also (List.append_cancel_left same)

theorem word_ne_label {other text : Text} (labelled : IsLabel other) :
    label ++ CodePoint.ofChar '\t' :: text ≠ other := by
  rintro rfl
  exact labelled.word (List.mem_append_right _ List.mem_cons_self)

theorem noFeed_word {text : Text} (labelled : IsLabel label) (single : CodePoint.ofChar '\n' ∉ text) :
    CodePoint.ofChar '\n' ∉ label ++ CodePoint.ofChar '\t' :: text := by
  intro member
  rcases List.mem_append.mp member with front | behind
  · exact labelled.line front
  · exact (List.mem_cons.mp behind).elim nofun single

/-- The lines of trees side by side tell the trees, if those of each one tell the tree. -/
theorem layoutAll_inj {others : List Tree} (drawn : ∀ tree ∈ trees, tree.IsDrawn) (also : ∀ tree ∈ others, tree.IsDrawn)
    (shallow : indentation x < 2 * depth) (flat : indentation y < 2 * depth)
    (each : ∀ tree ∈ trees, ∀ {other : Tree} {x y : Text}, other.IsDrawn → indentation x ≤ 2 * depth →
      indentation y ≤ 2 * depth → layout twoSpaces depth tree ++ x = layout twoSpaces depth other ++ y →
        tree = other ∧ x = y)
    (same : layoutAll twoSpaces depth trees ++ x = layoutAll twoSpaces depth others ++ y) : trees = others ∧ x = y := by
  have le {trees : List Tree} {z : Text} (drawn : ∀ tree ∈ trees, tree.IsDrawn) (behind : indentation z < 2 * depth) :
      indentation (layoutAll twoSpaces depth trees ++ z) ≤ 2 * depth := by
    cases trees with
    | nil => exact Nat.le_of_lt behind
    | cons tree trees =>
      rw [layoutAll, List.append_assoc]
      exact Nat.le_of_eq ((drawn tree List.mem_cons_self).indentation depth _)
  induction trees generalizing others with
  | nil =>
    cases others with
    | nil => exact ⟨rfl, same⟩
    | cons other others =>
      have deep := (also other List.mem_cons_self).indentation depth (layoutAll twoSpaces depth others ++ y)
      rw [layoutAll, layoutAll, List.append_assoc, List.nil_append] at same
      rw [← same] at deep
      omega
  | cons tree trees hypothesis =>
    obtain ⟨first, rest⟩ := List.forall_mem_cons.mp drawn
    cases others with
    | nil =>
      have deep := first.indentation depth (layoutAll twoSpaces depth trees ++ x)
      rw [layoutAll, layoutAll, List.append_assoc, List.nil_append] at same
      rw [same] at deep
      omega
    | cons other others =>
      obtain ⟨second, more⟩ := List.forall_mem_cons.mp also
      rw [layoutAll, layoutAll, List.append_assoc, List.append_assoc] at same
      obtain ⟨rfl, behind⟩ := each tree List.mem_cons_self second (le rest shallow) (le more flat) same
      obtain ⟨rfl, ends⟩ := hypothesis rest more (fun tree member => each tree (List.mem_cons_of_mem _ member)) behind
      exact ⟨rfl, ends⟩

/-- The lines of a tree tell the tree, and what is behind them where that is not deeper. -/
theorem IsDrawn.layout_inj (drawn : tree.IsDrawn) {other : Tree} (also : other.IsDrawn)
    (shallow : Tree.indentation x ≤ 2 * depth) (flat : Tree.indentation y ≤ 2 * depth)
    (same : layout twoSpaces depth tree ++ x = layout twoSpaces depth other ++ y) : tree = other ∧ x = y := by
  induction drawn generalizing other depth x y with
  | @word label text labelled single =>
    have one := noFeed_word labelled single
    cases also with
    | @word label' text' labelled' single' =>
      rw [layout_word, layout_word] at same
      obtain ⟨lines, behind⟩ := first_line one (noFeed_word labelled' single') same
      obtain ⟨rfl, rfl⟩ := append_cons_inj labelled.word labelled'.word lines
      exact ⟨rfl, behind⟩
    | branch labelled' drawn' =>
      rw [layout_word, layout_branch drawn'] at same
      exact absurd (first_line one labelled'.line same).1 (word_ne_label labelled')
  | @branch label children labelled drawn hypothesis =>
    rw [layout_branch drawn] at same
    cases also with
    | word labelled' single' =>
      rw [layout_word] at same
      exact absurd (first_line labelled.line (noFeed_word labelled' single') same).1.symm (word_ne_label labelled)
    | branch labelled' drawn' =>
      rw [layout_branch drawn'] at same
      obtain ⟨rfl, below⟩ := first_line labelled.line labelled'.line same
      obtain ⟨rfl, behind⟩ := layoutAll_inj drawn drawn' (by omega) (by omega)
        (fun child member other x y => hypothesis child member) below
      exact ⟨rfl, behind⟩

private theorem IsDrawn.pretty_inj (drawn : tree.IsDrawn) {other : Tree} (also : other.IsDrawn)
    (same : tree.pretty twoSpaces = other.pretty twoSpaces) : tree = other :=
  (drawn.layout_inj (x := []) (y := []) also (Nat.le_refl (2 * 0)) (Nat.le_refl 0)
    (by rw [List.append_nil, List.append_nil]; exact same)).1

/-! Expressions read back from trees. -/

/-- The expression that a label makes of the expressions below it. Arguments are read as an array. -/
def assemble (label : Text) (children : List Node) : Node :=
  if label = Text.of "ArrayExpression" || label = Text.of "arguments" then .array children
  else if label = Text.of "ObjectExpression" then .object children
  else match children with
    | [] =>
      if label = Text.of "ThisExpression" then .this
      else if label = Text.of "LocalsExpression" then .locals
      else .parameter
    | [body] => .program body
    | [first, second] =>
      if label = Text.of "Property" then .property first second
      else if label = Text.of "MemberExpression" then .member first second false
      else if label = Text.of "ComputedMemberExpression" then .member first second true
      else if label = Text.of "AssignmentExpression" then .assignment first second
      else match second with
        | .array arguments => .call first arguments
        | _ => .foreign
    | _ => .foreign

mutual

def expression (literal : Text → Value) : Tree → Node
  | .leaf _ _ => .foreign
  | .node label [.leaf _ text] =>
    if label = Text.of "Literal" then .literal (literal text) else .identifier text
  | .node label children => assemble label (expressions literal children)

def expressions (literal : Text → Value) : List Tree → List Node
  | [] => []
  | child :: children => expression literal child :: expressions literal children

end

theorem expression_branch (literal : Text → Value) (drawn : ∀ child ∈ children, child.IsDrawn) (label : Text) :
    expression literal (.node label children) = assemble label (expressions literal children) := by
  rw [expression]
  rintro kind text rfl
  exact (drawn _ List.mem_cons_self).ne_leaf kind text rfl

end Tree

namespace Node

mutual

def IsDrawable : Node → Prop
  | .program body => body.IsDrawable
  | .literal value => value.isScalar
  | .array elements => AreDrawable elements
  | .object properties => AreDrawable properties
  | .property key value => key.IsDrawable ∧ value.IsDrawable
  | .identifier name => Lexeme.IsName name
  | .this | .locals | .parameter => True
  | .member subject key _ => subject.IsDrawable ∧ key.IsDrawable
  | .call callee arguments => callee.IsDrawable ∧ AreDrawable arguments
  | .assignment left right => left.IsDrawable ∧ right.IsDrawable
  | .foreign => False

def AreDrawable : List Node → Prop
  | [] => True
  | node :: nodes => node.IsDrawable ∧ AreDrawable nodes

end

mutual

def unmarked : Node → Node
  | .program body => .program body.unmarked
  | .literal value => .literal value.unmarked
  | .array elements => .array (unmarkedAll elements)
  | .object properties => .object (unmarkedAll properties)
  | .property key value => .property key.unmarked value.unmarked
  | .member subject key computed => .member subject.unmarked key.unmarked computed
  | .call callee arguments => .call callee.unmarked (unmarkedAll arguments)
  | .assignment left right => .assignment left.unmarked right.unmarked
  | node => node

def unmarkedAll : List Node → List Node
  | [] => []
  | node :: nodes => node.unmarked :: unmarkedAll nodes

end

end Node

namespace Phrase

def IsDrawable : Phrase → Prop
  | .expression node => node.IsDrawable
  | .primary node => node.IsDrawable
  | .items nodes => Node.AreDrawable nodes
  | .properties nodes => Node.AreDrawable nodes

private theorem isDrawable_of_spells {ts : List Token} {phrase : Phrase}
    (spelled : Spells ts phrase)
    (tokens : Token.AreLegible ts) : phrase.IsDrawable := by
  have key {token : Token} {key : Node} (is : token.IsKey key)
      (legible : token.value.isScalar ∧ (token.kind = .identifier → Lexeme.IsName token.text)) : key.IsDrawable := by
    cases is with
    | name word => exact legible.2 word
    | literal _ => exact legible.1
  induction spelled with
  | expression _ ih => exact ih tokens
  | reserved _ reserved =>
    unfold Node.ofReserved? at reserved
    split_ifs at reserved <;> cases reserved <;> trivial
  | name is _ => exact (areLegible_cons.mp tokens).1.2 is
  | literal _ => exact (areLegible_cons.mp tokens).1.1
  | emptyArray _ _ | emptyObject _ _ => trivial
  | assignment _ _ _ left right =>
    obtain ⟨first, second⟩ := areLegible_append.mp tokens
    exact ⟨left first, right (areLegible_cons.mp second).2⟩
  | array _ _ _ ih | arrayWithComma _ _ _ _ ih | object _ _ _ ih =>
    exact ih (areLegible_append.mp (areLegible_cons.mp tokens).2).1
  | field _ is _ ih =>
    obtain ⟨first, second⟩ := areLegible_append.mp tokens
    exact ⟨ih first, (areLegible_cons.mp (areLegible_cons.mp second).2).1.2 is⟩
  | index _ _ _ _ subject key =>
    obtain ⟨first, rest⟩ := areLegible_append.mp tokens
    exact ⟨subject first, key (areLegible_append.mp (areLegible_cons.mp rest).2).1⟩
  | emptyCall _ _ _ ih => exact ⟨ih (areLegible_append.mp tokens).1, trivial⟩
  | call _ _ _ _ callee arguments =>
    obtain ⟨first, rest⟩ := areLegible_append.mp tokens
    exact ⟨callee first, arguments (areLegible_append.mp (areLegible_cons.mp rest).2).1⟩
  | item _ ih => exact ⟨ih tokens, trivial⟩
  | items _ _ _ first others =>
    obtain ⟨head, rest⟩ := areLegible_append.mp tokens
    exact ⟨first head, others (areLegible_cons.mp rest).2⟩
  | property is _ _ ih =>
    obtain ⟨own, rest⟩ := areLegible_cons.mp tokens
    exact ⟨⟨key is own, ih (areLegible_cons.mp rest).2⟩, trivial⟩
  | properties is _ _ _ _ first others =>
    obtain ⟨own, rest⟩ := areLegible_cons.mp tokens
    obtain ⟨head, rest⟩ := areLegible_append.mp (areLegible_cons.mp rest).2
    exact ⟨⟨key is own, first head⟩, others (areLegible_cons.mp rest).2⟩

end Phrase

namespace Node

theorem isLabel_of {label : Text} (known : label ∈ [Text.of "Program", Text.of "Literal", Text.of "ArrayExpression",
    Text.of "ObjectExpression", Text.of "Property", Text.of "Identifier", Text.of "ThisExpression",
    Text.of "LocalsExpression", Text.of "MemberExpression", Text.of "ComputedMemberExpression",
    Text.of "CallExpression", Text.of "arguments", Text.of "AssignmentExpression", Text.of "NGValueParameter"]) :
    Tree.IsLabel label := by
  simp only [List.mem_cons, List.not_mem_nil, or_false] at known
  rcases known with rfl | rfl | rfl | rfl | rfl | rfl | rfl | rfl | rfl | rfl | rfl | rfl | rfl | rfl
  all_goals exact ⟨⟨_, _, rfl, by decide⟩, by decide, by decide⟩

structure IsDrawnAs (h : Heap) (literal : Text → Value) (node : Node) (tree : Tree) : Prop where
  made : node.toTree h = .ok tree
  drawn : tree.IsDrawn
  read : tree.expression literal = node.unmarked

structure AreDrawnAs (h : Heap) (literal : Text → Value) (nodes : List Node) (trees : List Tree) : Prop where
  made : toTrees h nodes = .ok trees
  drawn : ∀ tree ∈ trees, tree.IsDrawn
  read : Tree.expressions literal trees = unmarkedAll nodes

variable {h : Heap} {literal : Text → Value} {node : Node} {label : Text} {trees : List Tree}

theorem isDrawnAs_branch (made : node.toTree h = .ok (.node label trees)) (labelled : Tree.IsLabel label)
    (drawn : ∀ tree ∈ trees, tree.IsDrawn)
    (read : Tree.assemble label (Tree.expressions literal trees) = node.unmarked) :
    node.IsDrawnAs h literal (.node label trees) :=
  ⟨made, .branch labelled drawn, (Tree.expression_branch literal drawn label).trans read⟩

mutual

theorem exists_isDrawnAs (h : Heap)
    (reads : ∀ value : Value, value.isScalar → literal (h.display value) = value.unmarked) :
    (node : Node) → node.IsDrawable → ∃ tree, node.IsDrawnAs h literal tree
  | .program body, drawable => by
    obtain ⟨tree, part⟩ := exists_isDrawnAs h reads body drawable
    refine ⟨_, isDrawnAs_branch (by rw [toTree, part.made]; rfl) (isLabel_of (by decide))
      (List.forall_mem_singleton.mpr part.drawn) ?_⟩
    rw [Tree.expressions, part.read]
    rfl
  | .literal value, scalar => by
    refine ⟨_, rfl, .word (isLabel_of (by decide)) (Heap.noFeed_display h scalar), ?_⟩
    exact congrArg Node.literal (reads value scalar)
  | .array elements, drawable => by
    obtain ⟨trees, parts⟩ := exists_areDrawnAs h reads elements drawable
    refine ⟨_, isDrawnAs_branch (by rw [toTree, parts.made]; rfl) (isLabel_of (by decide)) parts.drawn ?_⟩
    rw [parts.read]
    rfl
  | .object properties, drawable => by
    obtain ⟨trees, parts⟩ := exists_areDrawnAs h reads properties drawable
    refine ⟨_, isDrawnAs_branch (by rw [toTree, parts.made]; rfl) (isLabel_of (by decide)) parts.drawn ?_⟩
    rw [parts.read]
    rfl
  | .property key value, ⟨one, other⟩ => by
    obtain ⟨left, first⟩ := exists_isDrawnAs h reads key one
    obtain ⟨right, second⟩ := exists_isDrawnAs h reads value other
    refine ⟨_, isDrawnAs_branch (by rw [toTree, first.made, second.made]; rfl) (isLabel_of (by decide))
      (by simp [first.drawn, second.drawn]) ?_⟩
    rw [Tree.expressions, Tree.expressions, first.read, second.read]
    rfl
  | .identifier name, word => by
    refine ⟨_, rfl, .word (isLabel_of (by decide)) ?_, rfl⟩
    exact (Text.isGraphic_of_isName word).noFeed
  | .this, _ | .locals, _ | .parameter, _ =>
    ⟨_, isDrawnAs_branch rfl (isLabel_of (by decide)) (List.forall_mem_nil _) rfl⟩
  | .member subject key computed, ⟨one, other⟩ => by
    obtain ⟨left, first⟩ := exists_isDrawnAs h reads subject one
    obtain ⟨right, second⟩ := exists_isDrawnAs h reads key other
    refine ⟨_, isDrawnAs_branch (by rw [toTree, first.made, second.made]; rfl) (isLabel_of ?_)
      (by simp [first.drawn, second.drawn]) ?_⟩
    · cases computed <;> decide
    · rw [Tree.expressions, Tree.expressions, first.read, second.read]
      cases computed <;> rfl
  | .call callee arguments, ⟨one, others⟩ => by
    obtain ⟨target, first⟩ := exists_isDrawnAs h reads callee one
    obtain ⟨trees, parts⟩ := exists_areDrawnAs h reads arguments others
    have list : (Tree.node (Text.of "arguments") trees).IsDrawn := .branch (isLabel_of (by decide)) parts.drawn
    refine ⟨_, isDrawnAs_branch (by rw [toTree, first.made, parts.made]; rfl) (isLabel_of (by decide))
      (by simp [first.drawn, list]) ?_⟩
    rw [Tree.expressions, Tree.expressions, first.read, Tree.expression_branch literal parts.drawn, parts.read]
    rfl
  | .assignment left right, ⟨one, other⟩ => by
    obtain ⟨target, first⟩ := exists_isDrawnAs h reads left one
    obtain ⟨value, second⟩ := exists_isDrawnAs h reads right other
    refine ⟨_, isDrawnAs_branch (by rw [toTree, first.made, second.made]; rfl) (isLabel_of (by decide))
      (by simp [first.drawn, second.drawn]) ?_⟩
    rw [Tree.expressions, Tree.expressions, first.read, second.read]
    rfl

theorem exists_areDrawnAs (h : Heap)
    (reads : ∀ value : Value, value.isScalar → literal (h.display value) = value.unmarked) :
    (nodes : List Node) → AreDrawable nodes → ∃ trees, AreDrawnAs h literal nodes trees
  | [], _ => ⟨[], rfl, List.forall_mem_nil _, rfl⟩
  | node :: nodes, ⟨one, others⟩ => by
    obtain ⟨tree, first⟩ := exists_isDrawnAs h reads node one
    obtain ⟨trees, rest⟩ := exists_areDrawnAs h reads nodes others
    refine ⟨tree :: trees, by rw [toTrees, first.made, rest.made]; rfl, ?_, ?_⟩
    · exact List.forall_mem_cons.mpr ⟨first.drawn, rest.drawn⟩
    · rw [Tree.expressions, first.read, rest.read, unmarkedAll]

end

mutual

theorem toTree_unmarked (g h : Heap) : (node : Node) → node.IsDrawable → node.unmarked.toTree g = node.toTree h
  | .program body, drawable => by rw [unmarked, toTree, toTree, toTree_unmarked g h body drawable]
  | .literal value, scalar => by rw [unmarked, toTree, toTree, Heap.display_unmarked g h scalar]
  | .array elements, drawable => by rw [unmarked, toTree, toTree, toTrees_unmarked g h elements drawable]
  | .object properties, drawable => by rw [unmarked, toTree, toTree, toTrees_unmarked g h properties drawable]
  | .property key value, ⟨one, other⟩ => by
    rw [unmarked, toTree, toTree, toTree_unmarked g h key one, toTree_unmarked g h value other]
  | .identifier _, _ | .this, _ | .locals, _ | .parameter, _ => rfl
  | .member subject key _, ⟨one, other⟩ => by
    rw [unmarked, toTree, toTree, toTree_unmarked g h subject one, toTree_unmarked g h key other]
  | .call callee arguments, ⟨one, others⟩ => by
    rw [unmarked, toTree, toTree, toTree_unmarked g h callee one, toTrees_unmarked g h arguments others]
  | .assignment left right, ⟨one, other⟩ => by
    rw [unmarked, toTree, toTree, toTree_unmarked g h left one, toTree_unmarked g h right other]

theorem toTrees_unmarked (g h : Heap) : (nodes : List Node) → AreDrawable nodes →
    toTrees g (unmarkedAll nodes) = toTrees h nodes
  | [], _ => rfl
  | node :: nodes, ⟨one, others⟩ => by
    rw [unmarkedAll, toTrees, toTrees, toTree_unmarked g h node one, toTrees_unmarked g h nodes others]

end

theorem exists_literal : ∃ literal : Text → Value, ∀ (h : Heap) (value : Value), value.isScalar →
    literal (h.display value) = value.unmarked := by
  classical
  let shows (t : Text) (value : Value) : Prop := value.isScalar ∧ ∃ h : Heap, h.display value = t
  refine ⟨fun t => if some_ : ∃ value, shows t value then some_.choose.unmarked else .null, fun h value scalar => ?_⟩
  have some_ : ∃ value_, shows (h.display value) value_ := ⟨value, scalar, h, rfl⟩
  obtain ⟨chosen, g, same⟩ := some_.choose_spec
  dsimp only
  rw [dif_pos some_]
  exact Heap.unmarked_of_display chosen scalar same

private theorem pretty_eq_iff {node other : Node} (drawable : node.IsDrawable)
    (also : other.IsDrawable) (g h : Heap) :
    node.pretty g Tree.twoSpaces = other.pretty h Tree.twoSpaces ↔ node.unmarked = other.unmarked := by
  obtain ⟨literal, reads⟩ := exists_literal
  obtain ⟨tree, one⟩ := exists_isDrawnAs g (reads g) node drawable
  obtain ⟨tree', second⟩ := exists_isDrawnAs h (reads h) other also
  constructor
  · intro same
    rw [pretty, pretty, one.made, second.made] at same
    have trees : tree = tree' := one.drawn.pretty_inj second.drawn (Except.ok.inj same)
    rw [← one.read, trees, second.read]
  · intro same
    rw [pretty, pretty, ← toTree_unmarked g g node drawable, same, toTree_unmarked g h other also]

end Node

namespace Evaluator

variable {strict strict' : Bool} {marks marks' : Nat} {source source' : Text} {tree tree' : Node}
  {leftover leftover' : Option Token}

theorem isDrawable_of_parse (read : parse strict marks source = .ok (tree, leftover)) : tree.IsDrawable := by
  obtain ⟨body, tokens, rfl, spelled, legible⟩ := exists_legible_of_parse read
  exact Phrase.isDrawable_of_spells spelled legible

/-- What is drawn of a source tells its tree: trees that are read are drawn, and alike only if they are the same, but
for marks. -/
theorem parse_determined_by_pretty (read : parse strict marks source = .ok (tree, leftover))
    (also : parse strict' marks' source' = .ok (tree', leftover')) (g h : Heap) :
    (∃ text, tree.pretty g Tree.twoSpaces = .ok text) ∧
      (tree.pretty g Tree.twoSpaces = tree'.pretty h Tree.twoSpaces ↔ tree.unmarked = tree'.unmarked) := by
  have drawable := isDrawable_of_parse read
  refine ⟨?_, Node.pretty_eq_iff drawable (isDrawable_of_parse also) g h⟩
  obtain ⟨literal, reads⟩ := Node.exists_literal
  obtain ⟨drawing, drawn⟩ := Node.exists_isDrawnAs g (reads g) tree drawable
  exact ⟨drawing.pretty Tree.twoSpaces, by rw [Node.pretty, drawn.made]; rfl⟩

/-- Two sources of one tree, but for the mark of what is no number, and a third that is nested otherwise. -/
theorem parse_determined_by_pretty_of_arrays :
    let literal (mark : Nat) : Node := .literal (.float (.nan mark))
    parse true 0 (Text.of "[1..5]") = .ok (.program (.array [literal 1]), none) ∧
      parse true 7 (Text.of "[ 2..1]") = .ok (.program (.array [literal 9]), none) ∧
        parse true 0 (Text.of "[[1..5]]") = .ok (.program (.array [.array [literal 2]]), none) ∧
          (Node.program (.array [literal 1])).pretty Heap.empty Tree.twoSpaces =
              (Node.program (.array [literal 9])).pretty Heap.empty Tree.twoSpaces ∧
            (Node.program (.array [literal 1])).pretty Heap.empty Tree.twoSpaces ≠
              (Node.program (.array [.array [literal 2]])).pretty Heap.empty Tree.twoSpaces := by
  intro literal
  have scanned : tokenize (Text.of "[1..5]") = .ok [⟨.leftBracket, Text.of "[", .null, ⟨1, 1⟩⟩,
      ⟨.number, Text.of "1..5", .float (.nan 1), ⟨1, 2⟩⟩, ⟨.rightBracket, Text.of "]", .null, ⟨1, 6⟩⟩,
      ⟨.endOfInput, [], .null, ⟨1, 7⟩⟩] := rfl
  have spaced : tokenize (Text.of "[ 2..1]") = .ok [⟨.leftBracket, Text.of "[", .null, ⟨1, 1⟩⟩,
      ⟨.number, Text.of "2..1", .float (.nan 2), ⟨1, 3⟩⟩, ⟨.rightBracket, Text.of "]", .null, ⟨1, 7⟩⟩,
      ⟨.endOfInput, [], .null, ⟨1, 8⟩⟩] := rfl
  have nested : tokenize (Text.of "[[1..5]]") = .ok [⟨.leftBracket, Text.of "[", .null, ⟨1, 1⟩⟩,
      ⟨.leftBracket, Text.of "[", .null, ⟨1, 2⟩⟩, ⟨.number, Text.of "1..5", .float (.nan 2), ⟨1, 3⟩⟩,
      ⟨.rightBracket, Text.of "]", .null, ⟨1, 7⟩⟩, ⟨.rightBracket, Text.of "]", .null, ⟨1, 8⟩⟩,
      ⟨.endOfInput, [], .null, ⟨1, 9⟩⟩] := rfl
  have one : parse true 0 (Text.of "[1..5]") = .ok (.program (.array [literal 1]), none) := by
    rw [parse, scanned]
    rfl
  have other : parse true 7 (Text.of "[ 2..1]") = .ok (.program (.array [literal 9]), none) := by
    rw [parse, spaced]
    rfl
  have third : parse true 0 (Text.of "[[1..5]]") = .ok (.program (.array [.array [literal 2]]), none) := by
    rw [parse, nested]
    rfl
  refine ⟨one, other, third, (parse_determined_by_pretty one other Heap.empty Heap.empty).2.mpr rfl, fun alike => ?_⟩
  cases (parse_determined_by_pretty one third Heap.empty Heap.empty).2.mp alike

end Evaluator

end GuardedExpr

import GuardedExpr.Error
import GuardedExpr.Heap.Display
import GuardedExpr.Node.Basic

/-!
Expressions as labelled trees, and the layout of such trees in lines.
-/

namespace GuardedExpr

inductive Tree where
  | node (label : Text) (children : List Tree)
  | leaf (kind text : Text)

namespace Tree

mutual

/-- The lines of a tree: one for each label and leaf, indented by depth. A leaf that is the only child
stands behind its parent's label. -/
def layout (indent : Text) (depth : Nat) : Tree → Text
  | .leaf _ text => (List.replicate depth indent).flatten ++ text ++ Text.of "\n"
  | .node label [.leaf _ text] =>
    (List.replicate depth indent).flatten ++ label ++ Text.of "\t" ++ text ++ Text.of "\n"
  | .node label children =>
    (List.replicate depth indent).flatten ++ label ++ Text.of "\n" ++
      layoutAll indent (depth + 1) children

def layoutAll (indent : Text) (depth : Nat) : List Tree → Text
  | [] => []
  | child :: children => layout indent depth child ++ layoutAll indent depth children

end

def pretty (indent : Text) (tree : Tree) : Text :=
  tree.layout indent 0

def twoSpaces : Text := Text.of "  "

end Tree

namespace Node

mutual

/-- The labelled tree of an expression. Literals are leaves with the display of their value. -/
def toTree (h : Heap) : Node → Except Error Tree
  | .program body => do return .node (Text.of "Program") [← body.toTree h]
  | .literal value => .ok (.node (Text.of "Literal") [.leaf (Text.of "VALUE") (h.display value)])
  | .array elements => do return .node (Text.of "ArrayExpression") (← toTrees h elements)
  | .object properties => do return .node (Text.of "ObjectExpression") (← toTrees h properties)
  | .property key value => do
    return .node (Text.of "Property") [← key.toTree h, ← value.toTree h]
  | .identifier name => .ok (.node (Text.of "Identifier") [.leaf (Text.of "IDENT") name])
  | .this => .ok (.node (Text.of "ThisExpression") [])
  | .locals => .ok (.node (Text.of "LocalsExpression") [])
  | .member subject key computed => do
    let label := if computed then "ComputedMemberExpression" else "MemberExpression"
    return .node (Text.of label) [← subject.toTree h, ← key.toTree h]
  | .call callee arguments => do
    return .node (Text.of "CallExpression")
      [← callee.toTree h, .node (Text.of "arguments") (← toTrees h arguments)]
  | .assignment left right => do
    return .node (Text.of "AssignmentExpression") [← left.toTree h, ← right.toTree h]
  | .parameter => .ok (.node (Text.of "NGValueParameter") [])
  | .foreign => .error (.fault .notAnExpression)

def toTrees (h : Heap) : List Node → Except Error (List Tree)
  | [] => .ok []
  | node :: nodes => do return (← node.toTree h) :: (← toTrees h nodes)

end

def pretty (h : Heap) (indent : Text) (node : Node) : Except Error Text := do
  return (← node.toTree h).pretty indent

end Node

end GuardedExpr

import TemplateTree.Rose.Steps
import TemplateTree.Tree

/-!
# Shapes

The shape of a tree is the rose tree that its links describe, without spans
and without the text.
-/

namespace TemplateTree.Tree

/-- The shape of an element through at most `depth` levels of nodes. -/
def shapeUpTo (t : Tree) : Nat → Element → Rose Token
  | _, .token i => .token ⟨(t.token i).kind, (t.token i).span.length⟩
  | 0, .node i => .node (t.node i).label []
  | depth + 1, .node i => .node (t.node i).label ((t.elements i).map (t.shapeUpTo depth))

/-- The shape of a whole tree, which has no more levels than nodes. -/
def shape (t : Tree) : Rose Token := t.shapeUpTo t.nodes.size root

end TemplateTree.Tree

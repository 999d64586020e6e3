import TemplateTree.Tree

/-!
# Walks

A walk enters and leaves every element below its start in document order, and
the start itself. Children have greater numbers than their parent, so no walk
goes deeper than there are nodes.
-/

namespace TemplateTree

inductive WalkStep where
  | enter (e : Element)
  | leave (e : Element)
  deriving DecidableEq, Repr

namespace Tree

/-- The walk from an element through at most `depth` levels. -/
def walkUpTo (t : Tree) : Nat → Element → List WalkStep
  | 0, _ => []
  | _ + 1, .token i => [.enter (.token i), .leave (.token i)]
  | depth + 1, .node i =>
    .enter (.node i) :: ((t.elements i).flatMap (t.walkUpTo depth) ++ [.leave (.node i)])

/-- The walk from an element. -/
def walk (t : Tree) (e : Element) : List WalkStep := t.walkUpTo (t.nodes.size + 1) e

/-- The elements that a walk enters. -/
def entered (steps : List WalkStep) : List Element :=
  steps.filterMap fun
    | .enter e => some e
    | .leave _ => none

/-- A node and all nodes below it in document order. -/
def descendants (t : Tree) (i : Nat) : List Nat :=
  (entered (t.walk (.node i))).filterMap fun
    | .node j => some j
    | .token _ => none

/-- The tokens below a node in document order. -/
def tokensBelow (t : Tree) (i : Nat) : List Nat :=
  (entered (t.walk (.node i))).filterMap fun
    | .node _ => none
    | .token j => some j

end Tree

end TemplateTree

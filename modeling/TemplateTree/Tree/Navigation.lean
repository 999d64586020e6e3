import TemplateTree.Tree.Walk

/-!
# Navigation

Moves from one element of a tree to another. A move that leads nowhere has no
target. The moves to the children, the ancestors and the descendants start
from nodes only.
-/

namespace TemplateTree

inductive Move where
  | root
  | treeToken (n : Nat)
  | treeTokenBack (n : Nat)
  | treeError (n : Nat)
  | parent
  | firstChild
  | child (n : Nat)
  | childBack (n : Nat)
  | element (n : Nat)
  | elementBack (n : Nat)
  | descendant (n : Nat)
  | ancestor (n : Nat)
  | token (n : Nat)
  deriving DecidableEq, Repr

namespace Tree

/-- Every token of a tree, by number. -/
def allTokens (t : Tree) : List Nat := List.range t.tokens.size

/-- Where a move that starts from a node leads. -/
def moveFromNode? (t : Tree) (i : Nat) : Move → Option Element
  | .firstChild => (t.firstChild? i).map .node
  | .child n => (t.children i)[n]?.map .node
  | .childBack n => (t.children i).reverse[n]?.map .node
  | .element n => (t.elements i)[n]?
  | .elementBack n => (t.elements i).reverse[n]?
  | .descendant n => (t.descendants i)[n]?.map .node
  | .ancestor n => (t.ancestors i)[n]?.map .node
  | .token n => (t.tokensBelow i)[n]?.map .token
  | _ => none

/-- Where a move leads from an element. -/
def move? (t : Tree) (e : Element) : Move → Option Element
  | .root => some root
  | .treeToken n => t.allTokens[n]?.map .token
  | .treeTokenBack n => t.allTokens.reverse[n]?.map .token
  | .treeError n => t.errors[n]?.map .node
  | .parent => (t.parent? e).map .node
  | m =>
    match e with
    | .node i => t.moveFromNode? i m
    | .token _ => none

end Tree

end TemplateTree

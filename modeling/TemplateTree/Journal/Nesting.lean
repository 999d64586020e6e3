import TemplateTree.Journal

/-!
# How a journal nests

Read from the front, a journal has a depth: an opening adds one to it, a close takes one
away, and placeholders and tokens leave it as it is. Where nothing is open there is nothing
to close, so a depth is never below zero; a scan that keeps count checks this.

A stretch of a journal is matched if every node that opens in it also closes in it and
nothing else closes in it. The close of a node is the one that stands behind a matched
stretch.
-/

namespace TemplateTree

/-- The depth behind an entry, if what it closes is open. -/
def Entry.depthBehind? (depth : Nat) : Entry → Option Nat
  | .placeholder => some depth
  | .opening _ => some (depth + 1)
  | .token _ => some depth
  | .close => if depth = 0 then none else some (depth - 1)

namespace Journal

/-- The depth behind entries, if all that they close is open. -/
def depthBehind? (depth : Nat) (entries : List Entry) : Option Nat :=
  entries.foldlM Entry.depthBehind? depth

/-- A scan for a token that goes no further where its depth would fall below zero. -/
def scanChecked (depth : Nat) : List Entry → Option Bool
  | [] => some false
  | .placeholder :: rest => scanChecked depth rest
  | .opening _ :: rest => scanChecked (depth + 1) rest
  | .token _ :: _ => some true
  | .close :: rest =>
    if depth = 0 then none
    else if depth - 1 = 0 then some false
    else scanChecked (depth - 1) rest

/-- Entries that close every node that they open, and nothing else. -/
inductive Matched : List Entry → Prop
  | nil : Matched []
  | placeholder {later : List Entry} : Matched later → Matched (.placeholder :: later)
  | token {number : Nat} {later : List Entry} : Matched later → Matched (.token number :: later)
  | node {label : Label} {inner later : List Entry} : label ≠ .plain .placeholder →
      Matched inner → Matched later → Matched (.opening label :: (inner ++ .close :: later))

end Journal

end TemplateTree

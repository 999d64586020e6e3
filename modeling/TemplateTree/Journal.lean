import TemplateTree.Rose

/-!
# Journals

A parse records what it does in a journal: nodes that open, tokens by their
number among the significant ones, and nodes that close. A scope that has not
decided yet what it becomes stands in the journal as a placeholder, which is an
opening of a kind that no node of a tree has. A placeholder that is left behind
means nothing and has no matching close.
-/

namespace TemplateTree

inductive Entry where
  | opening (label : Label)
  | token (number : Nat)
  | close
  deriving DecidableEq, Repr

namespace Entry

/-- The entry of a scope that is not decided. -/
@[match_pattern] abbrev placeholder : Entry := .opening (.plain .placeholder)

end Entry

namespace Journal

/-- Scans a journal for a token. The scan gives up where the last of `depth`
open nodes closes. -/
def scanForToken (depth : Nat) : List Entry → Bool
  | [] => false
  | .placeholder :: rest => scanForToken depth rest
  | .opening _ :: rest => scanForToken (depth + 1) rest
  | .token _ :: _ => true
  | .close :: rest => if depth - 1 = 0 then false else scanForToken (depth - 1) rest

/-- Whether the node that the first entry opens holds a token. -/
def coversToken (entries : List Entry) : Bool := scanForToken 0 entries

end Journal

end TemplateTree

import TemplateTree.Grammar.Statement

/-!
# Rules by name

Every rule of the grammar that answers whether it succeeded, as a value.
-/

namespace TemplateTree.Grammar

inductive Rule where
  | program | statements | statement
  | blockTag | inverseTag | endTag | partialTag | mustache | elseTag
  | expression | params | param | hash | hashPair | path
  | leaf (kind : Kind)
  | greedyLeaf (kind : Kind)
  deriving DecidableEq, Repr

namespace Rule

/-- What a rule does. A program always succeeds. -/
def script : Rule → Script Bool
  | program => do
    Grammar.program
    return true
  | statements => Grammar.statements
  | statement => Grammar.statement
  | blockTag => Grammar.blockTag
  | inverseTag => Grammar.inverseTag
  | endTag => Grammar.endTag
  | partialTag => Grammar.partialTag
  | mustache => Grammar.mustache
  | elseTag => Grammar.elseTag
  | expression => Grammar.expression
  | params => Grammar.params
  | param => Grammar.param
  | hash => Grammar.hash
  | hashPair => Grammar.hashPair
  | path => Grammar.path
  | leaf kind => Grammar.leaf kind
  | greedyLeaf kind => Grammar.greedyLeaf kind

end Rule

end TemplateTree.Grammar

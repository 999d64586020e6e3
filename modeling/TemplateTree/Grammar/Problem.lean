import TemplateTree.Script

/-!
# Problems in a template

What a rule of the grammar can complain about, and the text of each complaint.
-/

namespace TemplateTree.Grammar

inductive Problem where
  | expected (kind : Kind)
  | expectedAssignment
  | expectedMustache
  | malformedBlock
  | malformedInverse
  | strayEnd
  | invalidToken
  deriving DecidableEq, Repr

namespace Problem

def message : Problem → String
  | expected kind => "expected " ++ kind.describe
  | expectedAssignment => "expected ="
  | expectedMustache => "expected `\x7b\x7b` or `\x7b\x7b\x7b`"
  | malformedBlock => "malformed block"
  | malformedInverse => "malformed inverse block"
  | strayEnd => "no corresponding open block"
  | invalidToken => "invalid token"

/-- Turns the contents of a scope into an error. -/
def closing (p : Problem) : Closing := .error p.message

end Problem

end TemplateTree.Grammar

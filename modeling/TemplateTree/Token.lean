import TemplateTree.Kind

/-!
# Tokens

A token is a kind and a length in bytes. Where a token stands in a text
follows from the lengths of the tokens before it.
-/

namespace TemplateTree

structure Token where
  kind : Kind
  length : Nat
  deriving DecidableEq, Repr, Inhabited

namespace Token

def isTrivia (t : Token) : Bool := t.kind.isTrivia

end Token

end TemplateTree

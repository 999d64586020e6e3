import TemplateTree.Rose
import TemplateTree.Token

/-!
# Significant parts

What remains of a tree when its blank tokens are left out and only the kinds
of the others are kept.
-/

namespace TemplateTree.Rose

mutual

/-- A tree over kinds, without the blank tokens. -/
def significant : Rose Token → List (Rose Kind)
  | token t => if t.isTrivia then [] else [.token t.kind]
  | node label children => [.node label (significantAll children)]

/-- Trees over kinds, without the blank tokens. -/
def significantAll : List (Rose Token) → List (Rose Kind)
  | [] => []
  | r :: rs => significant r ++ significantAll rs

end

@[simp] theorem significantAll_append (rs ss : List (Rose Token)) :
    significantAll (rs ++ ss) = significantAll rs ++ significantAll ss := by
  induction rs with
  | nil => rfl
  | cons r rs ih => simp [significantAll, ih]

end TemplateTree.Rose

import TemplateTree.Rose
import TemplateTree.Token

/-!
# Trees step by step

A tree can be written down from left to right in steps: a node starts, a token
follows the one before it, the innermost node finishes. The steps of a tree
are its serialization.
-/

namespace TemplateTree

inductive BuildStep where
  | start (label : Label)
  | token (t : Token)
  | finish
  deriving DecidableEq, Repr

namespace Rose

mutual

/-- The steps that write a tree down. -/
def steps : Rose Token → List BuildStep
  | token t => [.token t]
  | node label children => .start label :: (stepsAll children ++ [.finish])

/-- The steps that write down trees one after the other. -/
def stepsAll : List (Rose Token) → List BuildStep
  | [] => []
  | r :: rs => steps r ++ stepsAll rs

end

@[simp] theorem stepsAll_append (rs ss : List (Rose Token)) :
    stepsAll (rs ++ ss) = stepsAll rs ++ stepsAll ss := by
  induction rs with
  | nil => rfl
  | cons r rs ih => simp [stepsAll, ih]

end Rose

end TemplateTree

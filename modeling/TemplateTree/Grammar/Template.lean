import TemplateTree.Grammar.Statement

/-!
# Whole templates

A program may end before the input does. Then the token at which it stopped is
put into an error, an end tag with no block to end being read as a whole, and
another program is read, until nothing is left.
-/

namespace TemplateTree.Grammar

open Script

/-- Puts an end tag, or else a single token, into an error. -/
def recover : Script Unit := do
  let before ← left
  if (← current) = .openEnd then
    checkpoint do
      let _ ← endTag
      return (Problem.strayEnd.closing, ())
  if (← left) = before then
    checkpoint do
      take
      return (Problem.invalidToken.closing, ())

/-- Reads on up to `bound` times, as long as something is left. -/
def resumeUpTo : Nat → Script Unit
  | 0 => return ()
  | bound + 1 => do
    if (← left) = 0 then return ()
    recover
    program
    resumeUpTo bound

/-- The whole input below one root. -/
def template (root : Kind) : Script Unit := checkpoint do
  program
  resumeUpTo (← left)
  return (.node root, ())

end TemplateTree.Grammar

import TemplateTree.Grammar.Problem

/-!
# Single tokens

A token that a rule asks for becomes a node of its own kind. What to do when
another token stands there is decided here for the whole grammar: tokens that
the tokenizer could not read are passed over inside an error, and the greedy
variant also skips everything up to the token that it looks for, unless a kind
of the recovery set or the end of the input comes first.
-/

namespace TemplateTree.Grammar

open Script

/-- Takes a token of one kind, or leaves an error over the unreadable tokens
at the cursor, of which there may be none. -/
def leaf (kind : Kind) : Script Bool := checkpoint do
  if (← current) = kind then
    take
    return (.node kind, true)
  takeWhile fun v => v.ahead 0 = .invalid
  return ((Problem.expected kind).closing, false)

/-- Whether skipping goes on while looking for a token of one kind. -/
def skips (kind : Kind) (v : View) : Bool :=
  v.left ≠ 0 && v.ahead 0 ≠ kind && !v.recovery.contains (v.ahead 0)

/-- Takes a token of one kind, skipping what stands before it. -/
def greedyLeaf (kind : Kind) : Script Bool := do
  if ← leaf kind then return true
  if (← current) ≠ kind then
    complain (Problem.expected kind).message
    checkpoint do
      let before ← left
      takeWhile (skips kind)
      if (← left) < before then return ((Problem.expected kind).closing, ())
      return (.splice, ())
  leaf kind

end TemplateTree.Grammar

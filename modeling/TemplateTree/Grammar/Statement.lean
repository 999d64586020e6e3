import TemplateTree.Grammar.Expression

/-!
# Statements

A template is a program: a sequence of statements that may be followed by an
else tag and a second sequence. A statement is a piece of content, a comment,
a mustache, a partial, or a block, which is an opening tag, a program, and an
end tag. The three parts of a block stand side by side in the tree.

A tag whose inside is broken still extends to its closing delimiter, so that
one broken expression does not disturb what follows it.
-/

namespace TemplateTree.Grammar

open Script

/-- A tag: its opening delimiter, its inside, and the closing delimiter. -/
def tag (opening node : Kind) (inside : Script Bool) : Script Bool := checkpoint do
  if !(← leaf opening) then return ((Problem.expected node).closing, false)
  let _ ← inside
  let _ ← greedyLeaf .close
  return (.node node, true)

def blockTag : Script Bool := tag .openBlock .blockTag expression

def inverseTag : Script Bool := tag .openInverse .inverseTag expression

def endTag : Script Bool := tag .openEnd .endTag path

/-- A path, and a second one if there is one. -/
def partialPaths : Script Bool := do
  if !(← path) then return false
  let _ ← attempt path
  return true

def partialTag : Script Bool := tag .openPartial .partialTag partialPaths

def isMustacheOpening (kind : Kind) : Bool := kind = .openValue || kind = .openRaw

/-- A mustache without an opening delimiter still has its expression and its
closing delimiter read. -/
def mustache : Script Bool := checkpoint do
  let opening ← current
  if isMustacheOpening opening then
    let _ ← leaf opening
  else
    complain Problem.expectedMustache.message
  let _ ← expression
  let _ ← greedyLeaf .close
  return (.node .mustache, true)

/-- An else tag is taken as a whole or not at all. -/
def elseTag : Script Bool := checkpoint do
  if !(← leaf .openInverse) then return (.undo, false)
  if !(← leaf .close) then return (.undo, false)
  return (.node .elseTag, true)

/-- A block around a program. -/
def block (opening : Script Bool) (malformed : Problem) (inner : Script Unit) : Script Bool :=
  checkpoint do
    if !(← opening) then return (malformed.closing, false)
    inner
    let _ ← endTag
    return (.splice, true)

def commentNode : Script Bool := checkpoint do
  take
  return (.node .comment, true)

/-- A statement, given how to read the program inside a block. -/
def statementOver (inner : Script Unit) : Script Bool := do
  match ← current with
  | .openInverse =>
    if ← lookahead elseTag then return false
    block inverseTag .malformedInverse inner
  | .openBlock => block blockTag .malformedBlock inner
  | .openValue | .openRaw => mustache
  | .openPartial => partialTag
  | .content =>
    take
    return true
  | .comment => commentNode
  | _ => return false

/-- One or more statements. -/
def statementsOver (inner : Script Unit) : Script Bool := checkpoint do
  if !(← statementOver inner) then return ((Problem.expected .statements).closing, false)
  many (statementOver inner)
  return (.node .statements, true)

/-- A program whose blocks are nested at most `depth` deep. -/
def programUpTo : Nat → Script Unit
  | 0 => return ()
  | depth + 1 => do
    if (← left) = 0 then return ()
    let found ← checkpoint do
      let (found, moved) ← tracked (statementsOver (programUpTo depth))
      return (if found || moved then .splice else .undo, found)
    if found then
      if ← elseTag then
        let _ ← statementsOver (programUpTo depth)

/-- A program. Each level of blocks takes a token, so there are never more
levels than tokens. -/
def program : Script Unit := do
  programUpTo (← left)

def statement : Script Bool := statementOver program

def statements : Script Bool := statementsOver program

end TemplateTree.Grammar

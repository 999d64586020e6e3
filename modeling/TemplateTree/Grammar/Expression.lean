import TemplateTree.Grammar.Leaf

/-!
# Expressions

The part of a tag between its delimiters:

* an expression is a path, then parameters, then pairs of a hash;
* a path is a sequence of identifiers with separators between them;
* a parameter is a path, a string, an integer or a boolean;
* a pair is an identifier, an equals sign and a parameter.

An identifier that starts a pair is never read as a path, so the parameters
end where the hash begins. A hash that breaks off after it took something is
kept, with its errors.
-/

namespace TemplateTree.Grammar

open Script

/-- How many times in a row an identifier is followed by an equals sign, from
`offset` tokens ahead of the cursor on and up to `bound` times. -/
def pairRun (v : View) (offset : Nat) : Nat → Nat
  | 0 => 0
  | bound + 1 =>
    if v.ahead offset = .ident && v.ahead (offset + 1) = .equals then
      pairRun v (offset + 2) bound + 1
    else 0

/-- A parameter starts with one of these kinds. -/
def startsParam (kind : Kind) : Bool :=
  kind = .ident || kind = .string || kind = .integer || kind = .boolean

/-- Whether a complete pair lies ahead. The value of a pair is a path only if
no pair starts there, so along a run of identifiers and equals signs the
answer alternates. -/
def isPairAhead (v : View) : Bool :=
  let run := pairRun v 0 v.left
  if run = 0 then false
  else startsParam (v.ahead (2 * run)) == (run % 2 == 1)

/-- One more step of a path. A separator is given back if no identifier that
belongs to the path follows it, unless the identifier is missing altogether. -/
def pathStep : Script Bool := checkpoint do
  if !(← leaf .separator) then return (.undo, false)
  if isPairAhead (← view) then return (.undo, false)
  let found ← leaf .ident
  return (.splice, found)

/-- Goes on with a path, up to `bound` steps, until a step fails. -/
def pathSteps : Nat → Script Unit
  | 0 => return ()
  | bound + 1 => do
    if ← pathStep then pathSteps bound

def path : Script Bool := do
  if isPairAhead (← view) then return false
  checkpoint do
    if !(← leaf .ident) then return ((Problem.expected .ident).closing, false)
    pathSteps (← left)
    return (.node .path, true)

def param : Script Bool := checkpoint do
  if ← firstOf [path, leaf .string, leaf .integer, leaf .boolean] then
    return (.node .param, true)
  return ((Problem.expected .param).closing, false)

def params : Script Bool := checkpoint do
  if !(← param) then return ((Problem.expected .params).closing, false)
  many param
  return (.node .params, true)

def hashPair : Script Bool := checkpoint do
  if !(← leaf .ident) then return ((Problem.expected .ident).closing, false)
  if !(← leaf .equals) then return (Problem.expectedAssignment.closing, false)
  if !(← param) then return ((Problem.expected .param).closing, false)
  return (.node .hashPair, true)

/-- Further pairs of a hash, up to `bound` of them. The answer is whether the
hash ends with a complete pair; a pair that breaks off is kept. -/
def hashPairs : Nat → Script Bool
  | 0 => return true
  | bound + 1 => do
    let (found, moved) ← checkpoint do
      let (found, moved) ← tracked hashPair
      return (if found || moved then .splice else .undo, found, moved)
    if found then hashPairs bound else return !moved

def hash : Script Bool := checkpoint do
  let (found, moved) ← tracked hashPair
  if found then
    let complete ← hashPairs (← left)
    return (.node .hash, complete)
  if moved then return (.node .hash, false)
  return ((Problem.expected .hash).closing, false)

/-- A hash after the parameters is kept if it took anything. -/
def trailingHash : Script Unit := checkpoint do
  let (found, moved) ← tracked hash
  return (if found || moved then .splice else .undo, ())

/-- Parameters and the hash after them, if there are any. -/
def arguments : Script Unit := checkpoint do
  if !(← params) then return (.undo, ())
  trailingHash
  return (.splice, ())

/-- Whether an identifier and an equals sign lie ahead. -/
def isKeyAhead (v : View) : Bool :=
  v.ahead 0 = .ident && v.ahead 1 = .equals

/-- A hash in the place of the parameters. One that breaks off is kept only if
it starts with a key. -/
def leadingHash : Script Bool := do
  let atKey := isKeyAhead (← view)
  checkpoint do
    let (found, moved) ← tracked hash
    let kept := found || (atKey && moved)
    return (if kept then .splice else .undo, kept)

def expression : Script Bool := checkpoint do
  if !(← path) then return ((Problem.expected .path).closing, false)
  if !(← leadingHash) then arguments
  return (.node .expression, true)

end TemplateTree.Grammar

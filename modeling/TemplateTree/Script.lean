import TemplateTree.KindSet
import TemplateTree.Rose

/-!
# Scripts

A rule of the grammar is a script: a description of what to do at a cursor in
a sequence of significant tokens. A script looks at the kinds ahead, takes
tokens, reports failures, and opens scopes. A scope runs an inner script and
then decides what becomes of everything that it recorded: it is wrapped into a
node or an error, kept as it is, or undone together with the movement of the
cursor. Scopes nest by construction, so no rule can forget to close one.

A script has no loops of its own. A rule that repeats something counts down
from the number of tokens that are left, which is among the things that a
script may look at.
-/

namespace TemplateTree

/-- What a script may know about the place where it stands. -/
structure View where
  /-- Kind of the token that is so many tokens ahead of the cursor. -/
  ahead : Nat → Kind
  /-- Number of tokens that are left. -/
  left : Nat
  /-- Kinds at which the skipping of unexpected tokens stops. -/
  recovery : KindSet

/-- What can be seen from the front of a list of kinds. -/
def View.ofList (recovery : KindSet) (kinds : List Kind) : View where
  ahead n := kinds.getD n .endOfInput
  left := kinds.length
  recovery := recovery

/-- What becomes of the things recorded in a scope. -/
inductive Closing where
  | node (kind : Kind)
  | error (message : String)
  | splice
  | undo
  deriving DecidableEq, Repr

inductive Script : Type → Type 1 where
  | pure {α : Type} (result : α) : Script α
  | look {α : Type} (next : View → Script α) : Script α
  | bump {α : Type} (next : Script α) : Script α
  | report {α : Type} (message : String) (next : Script α) : Script α
  | scope {α β : Type} (body : Script (Closing × β)) (next : β → Script α) : Script α

namespace Script

/-- Continues with a script that depends on the result of another. -/
def bind {α β : Type} : Script α → (α → Script β) → Script β
  | .pure a, f => f a
  | .look next, f => .look fun v => (next v).bind f
  | .bump next, f => .bump (next.bind f)
  | .report m next, f => .report m (next.bind f)
  | .scope body next, f => .scope body fun b => (next b).bind f

instance : Monad Script where
  pure := Script.pure
  bind := Script.bind

@[simp] theorem pure_bind {α β : Type} (a : α) (f : α → Script β) :
    (Script.pure a).bind f = f a := rfl

@[simp] theorem bind_pure {α : Type} (p : Script α) : p.bind .pure = p := by
  induction p with
  | pure a => rfl
  | look next ih => simp [bind, ih]
  | bump next ih => simp [bind, ih]
  | report m next ih => simp [bind, ih]
  | scope body next _ ih => simp [bind, ih]

@[simp] theorem bind_assoc {α β γ : Type} (p : Script α) (f : α → Script β) (g : β → Script γ) :
    (p.bind f).bind g = p.bind fun a => (f a).bind g := by
  induction p with
  | pure a => rfl
  | look next ih => simp [bind, ih]
  | bump next ih => simp [bind, ih]
  | report m next ih => simp [bind, ih]
  | scope body next _ ih => simp [bind, ih]

def view : Script View := .look .pure

/-- Kind of the next token. -/
def current : Script Kind := .look fun v => .pure (v.ahead 0)

/-- Number of tokens that are left. -/
def left : Script Nat := .look fun v => .pure v.left

/-- Takes the next token, if there is one. -/
def take : Script Unit := .bump (.pure ())

/-- Records a failure that covers nothing. -/
def complain (message : String) : Script Unit := .report message (.pure ())

/-- Runs a script in a scope of its own, which it closes as it tells. -/
def checkpoint {α : Type} (body : Script (Closing × α)) : Script α := .scope body .pure

/-- Keeps what a rule did if the rule succeeds, and undoes it if not. -/
def attempt (rule : Script Bool) : Script Bool := checkpoint do
  if ← rule then return (.splice, true)
  return (.undo, false)

/-- Undoes what a rule did in any case. -/
def lookahead (rule : Script Bool) : Script Bool := checkpoint do
  let found ← rule
  return (.undo, found)

/-- Tells whether a rule succeeded and whether it took any token. -/
def tracked (rule : Script Bool) : Script (Bool × Bool) := do
  let before ← left
  let found ← rule
  let after ← left
  return (found, decide (after < before))

/-- The first of the rules that succeeds. -/
def firstOf : List (Script Bool) → Script Bool
  | [] => return false
  | rule :: rules => do
    if ← attempt rule then return true
    firstOf rules

/-- Repeats a rule up to `bound` times, for as long as it succeeds. -/
def repeatUpTo (rule : Script Bool) : Nat → Script Unit
  | 0 => return ()
  | bound + 1 => do
    if ← attempt rule then repeatUpTo rule bound

/-- Repeats a rule for as long as it succeeds. Each success takes a token. -/
def many (rule : Script Bool) : Script Unit := do
  repeatUpTo rule (← left)

/-- Takes up to `bound` tokens, for as long as `p` holds of what lies ahead. -/
def takeUpTo (p : View → Bool) : Nat → Script Unit
  | 0 => return ()
  | bound + 1 => do
    if p (← view) then
      take
      takeUpTo p bound

/-- Takes tokens for as long as `p` holds of what lies ahead. -/
def takeWhile (p : View → Bool) : Script Unit := do
  takeUpTo p (← left)

end Script

end TemplateTree

import TemplateTree.Session.Draft

/-!
# Sessions that check what they close

The closing of a checkpoint relies on what it finds in the journal: to complete a
node is to rewrite an opening that stands where the placeholder was put, and to
abandon a checkpoint with nothing behind it is to remove its placeholder. A
session that checks this goes no further where anything else is found. It is also
stopped by a command that drops a checkpoint or closes one that is not open.
-/

namespace TemplateTree

open Session

namespace Session

/-- Whether the journal is such that a checkpoint can be closed in this way. -/
def canClose (s : Session) (c : Checkpoint) : Closing → Bool
  | .node _ | .error _ =>
    match s.journal[c.entry]? with
    | some (.opening _) => true
    | _ => false
  | .splice =>
    s.journal.size ≠ 0 && (c.entry + 1 ≠ s.journal.size || s.journal.back? = some .placeholder)
  | .undo => true

/-- Closes a checkpoint if the journal allows it. -/
def closeChecked (s : Session) (c : Checkpoint) (closing : Closing) : Option Session :=
  if s.canClose c closing then some (s.close c closing) else none

end Session

/-- Carries out a script in a session that checks what it closes. -/
def Script.runChecked {α : Type} : Script α → Session → Option (α × Session)
  | .pure a, s => some (a, s)
  | .look next, s => (next s.view).runChecked s
  | .bump next, s => next.runChecked s.bump
  | .report m next, s => next.runChecked (s.report m)
  | .scope body next, s =>
    (body.runChecked s.opened).bind fun r =>
      (r.2.closeChecked s.checkpoint r.1.1).bind fun t => (next r.1.2).runChecked t

namespace Session

namespace Steered

/-- Closes the innermost checkpoint, if there is one and the journal allows it. -/
def closeInnermostChecked (s : Steered) (closing : Closing) : Option Steered :=
  match s.marks with
  | [] => none
  | c :: marks =>
    (s.session.closeChecked c closing).map fun session => ⟨session, s.root, marks⟩

/-- Runs a script for its answer. -/
def runScriptChecked (s : Steered) (script : Script Bool) : Option (Answer × Steered) :=
  (script.runChecked s.session).map fun (found, session) =>
    (.truth found, { s with session := session })

/-- Carries out one command. -/
def stepChecked (s : Steered) (c : Command) : Option (Answer × Steered) :=
  match c.closing? with
  | some closing => (s.closeInnermostChecked closing).map fun t => (.nothing, t)
  | none =>
    match c with
    | .drop => none
    | .rule r => s.runScriptChecked r.script
    | .attempt r => s.runScriptChecked (.attempt r.script)
    | .lookahead r => s.runScriptChecked (.lookahead r.script)
    | c => some (s.step c)

/-- Carries out commands one after the other and collects the answers. -/
def performChecked : Steered → List Command → Option (List Answer × Steered)
  | s, [] => some ([], s)
  | s, c :: cs =>
    (s.stepChecked c).bind fun (a, t) =>
      (t.performChecked cs).map fun (as, u) => (a :: as, u)

end Steered

/-- A run of commands that closes exactly the checkpoints that it opens, innermost
first: one after the other there are commands that neither open nor close any, and
a start with a run of this kind behind it and then a closing. -/
inductive Balanced : List Command → Prop
  | nil : Balanced []
  | plain {c : Command} {later : List Command} (hstart : c ≠ .start) (hdrop : c ≠ .drop)
      (hclosing : c.closing? = none) (hlater : Balanced later) : Balanced (c :: later)
  | scope {inner later : List Command} {c : Command} {closing : Closing}
      (hinner : Balanced inner) (hclosing : c.closing? = some closing)
      (hlater : Balanced later) : Balanced (.start :: (inner ++ c :: later))

end Session

end TemplateTree

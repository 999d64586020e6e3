import TemplateTree.Session.Steering

/-!
# Drafts

What a session under the control of commands is meant to do, said without a
journal. A draft is a cursor with a stack of forests: the trees that have grown
since the innermost open checkpoint, and for every open checkpoint a snapshot of
what there was when it was opened. To take a token is to add a leaf, to close a
checkpoint is to put its trees behind those of the snapshot, in a node or loose,
and to roll back is to return to the snapshot.
-/

namespace TemplateTree

/-- What there was when a checkpoint was opened: the trees that had grown since
the checkpoint around it, and the place of the cursor. -/
structure Snapshot where
  forest : List (Rose Kind)
  cursor : Nat
  deriving Repr

structure Draft where
  kinds : List Kind
  recovery : KindSet
  cursor : Nat
  forest : List (Rose Kind)
  snapshots : List Snapshot
  deriving Repr

namespace Draft

open Session

/-- A draft at the front of the kinds, inside the root. -/
def start (kinds : List Kind) (recovery : KindSet) : Draft := ⟨kinds, recovery, 0, [], []⟩

/-- The kinds that are left. -/
def rest (d : Draft) : List Kind := d.kinds.drop d.cursor

def view (d : Draft) : View := .ofList d.recovery d.rest

/-- Adds the next token, if there is one. -/
def bump (d : Draft) : Draft :=
  match d.rest with
  | [] => d
  | k :: _ => { d with cursor := d.cursor + 1, forest := d.forest ++ [.token k] }

/-- Adds an error without children. -/
def report (d : Draft) (message : String) : Draft :=
  { d with forest := d.forest ++ [.node (.failure message) []] }

/-- Opens a checkpoint. -/
def opened (d : Draft) : Draft :=
  { d with forest := [], snapshots := ⟨d.forest, d.cursor⟩ :: d.snapshots }

/-- Closes the innermost checkpoint, if there is one. -/
def close (d : Draft) (closing : Closing) : Draft :=
  match d.snapshots with
  | [] => d
  | s :: outer =>
    match closing with
    | .node kind =>
      { d with forest := s.forest ++ [.node (.plain kind) d.forest], snapshots := outer }
    | .error message =>
      { d with forest := s.forest ++ [.node (.failure message) d.forest], snapshots := outer }
    | .splice => { d with forest := s.forest ++ d.forest, snapshots := outer }
    | .undo => { d with cursor := s.cursor, forest := s.forest, snapshots := outer }

end Draft

/-- Carries out a script on a draft. -/
def Script.draw {α : Type} : Script α → Draft → α × Draft
  | .pure a, d => (a, d)
  | .look next, d => (next d.view).draw d
  | .bump next, d => next.draw d.bump
  | .report m next, d => next.draw (d.report m)
  | .scope body next, d =>
    match body.draw d.opened with
    | ((closing, b), e) => (next b).draw (e.close closing)

namespace Draft

open Session

/-- Draws a script for its answer. -/
def answer (d : Draft) (script : Script Bool) : Answer × Draft :=
  let (found, e) := script.draw d
  (.truth found, e)

/-- Carries out one command. -/
def step (d : Draft) : Command → Answer × Draft
  | .start => (.nothing, d.opened)
  | .complete kind => (.nothing, d.close (.node kind))
  | .error message => (.nothing, d.close (.error message))
  | .abandon => (.nothing, d.close .splice)
  | .rollback => (.nothing, d.close .undo)
  | .drop => (.offence .unclosed, d.close .splice)
  | .advanced => (.truth (d.snapshots.head?.any fun s => decide (s.cursor < d.cursor)), d)
  | .bump => (.nothing, d.bump)
  | .report message => (.nothing, d.report message)
  | .at kind => (.truth (d.view.ahead 0 = kind), d)
  | .nth n =>
    (if d.cursor + n < countLimit then .kind (d.view.ahead n) else .offence .uncountable, d)
  | .recovers => (.truth (d.recovery.contains (d.view.ahead 0)), d)
  | .isPairAhead => (.truth (Grammar.isPairAhead d.view), d)
  | .rule r => d.answer r.script
  | .attempt r => d.answer (.attempt r.script)
  | .lookahead r => d.answer (.lookahead r.script)

/-- The tree of a draft without open checkpoints: the tokens that were not taken
come last below the root. -/
def complete (d : Draft) (root : Kind) : Rose Kind :=
  .node (.plain root) (d.forest ++ d.rest.map .token)

end Draft

namespace Session

/-- How a command closes a checkpoint, if that is what it does. -/
def Command.closing? : Command → Option Closing
  | .complete kind => some (.node kind)
  | .error message => some (.error message)
  | .abandon => some .splice
  | .rollback => some .undo
  | _ => none

/-- How many checkpoints are open after a command that finds so many open. A command
has no place in a run if it closes a checkpoint that is not open, drops one, or
labels a node a placeholder. -/
def Command.nest (depth : Nat) : Command → Option Nat
  | .start => some (depth + 1)
  | .drop => none
  | c =>
    match c.closing? with
    | none => some depth
    | some closing =>
      if depth = 0 ∨ closing = .node .placeholder then none else some (depth - 1)

/-- The commands close all the checkpoints that they open, innermost first. An attempt
or a lookahead over several commands is a run of this kind too: it opens a
checkpoint first, and at the end it abandons it or rolls it back. -/
def WellNested (commands : List Command) : Prop := commands.foldlM Command.nest 0 = some 0

instance (commands : List Command) : Decidable (WellNested commands) :=
  inferInstanceAs (Decidable (_ = _))

/-- Carries out commands one after the other and collects the answers. -/
def perform {σ : Type} (step : σ → Command → Answer × σ) : σ → List Command → List Answer × σ
  | s, [] => ([], s)
  | s, c :: cs =>
    let (a, t) := step s c
    let (as, u) := perform step t cs
    (a :: as, u)

end Session

end TemplateTree

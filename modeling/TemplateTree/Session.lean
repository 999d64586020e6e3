import TemplateTree.Journal
import TemplateTree.Script
import TemplateTree.TokenStream

/-!
# Sessions

A session is a parse under way: a token stream, a cursor that counts the
significant tokens taken so far, and a journal. Nothing is built before the
session ends, so everything recorded after a checkpoint can still be thrown
away.

A checkpoint remembers where its placeholder stands and where the cursor was.
It is closed in one of four ways, which are those of the scope of a script.
Checkpoints are closed in the reverse order of their opening.
-/

namespace TemplateTree

structure Session where
  stream : TokenStream
  recovery : KindSet
  cursor : Nat
  journal : Array Entry

structure Checkpoint where
  entry : Nat
  cursor : Nat
  deriving DecidableEq, Repr

namespace Session

/-- A session at the front of a stream. -/
def start (stream : TokenStream) (recovery : KindSet) : Session := ⟨stream, recovery, 0, #[]⟩

/-- Kind of the token so many tokens ahead. -/
def ahead (s : Session) (n : Nat) : Kind := s.stream.kindAt (s.cursor + n)

def current (s : Session) : Kind := s.ahead 0

def atEnd (s : Session) : Bool := decide (s.stream.size ≤ s.cursor)

/-- What a script may know of a session. -/
def view (s : Session) : View :=
  let stream := s.stream
  let cursor := s.cursor
  ⟨fun n => stream.kindAt (cursor + n), stream.size - cursor, s.recovery⟩

/-- The kinds of the tokens that are left. -/
def rest (s : Session) : List Kind := s.stream.kinds.drop s.cursor

/-- A session shows what the list of the kinds that are left shows. -/
theorem view_eq_ofList (s : Session) : s.view = View.ofList s.recovery s.rest := by
  simp only [view, View.ofList, rest]
  congr 1
  · funext n
    rw [TokenStream.kindAt_eq_getD, List.getD_eq_getElem?_getD, List.getD_eq_getElem?_getD,
      List.getElem?_drop]
  · rw [TokenStream.size_eq_length_kinds, List.length_drop]

/-- Takes the next token, if there is one. -/
def bump (s : Session) : Session :=
  if s.atEnd then s
  else { s with cursor := s.cursor + 1, journal := s.journal.push (.token s.cursor) }

/-- Records an error that covers nothing. -/
def report (s : Session) (message : String) : Session :=
  { s with journal := (s.journal.push (.opening (.failure message))).push .close }

/-- The checkpoint that a scope opened now would have. -/
def checkpoint (s : Session) : Checkpoint := ⟨s.journal.size, s.cursor⟩

/-- Puts the placeholder of a new scope into the journal. -/
def opened (s : Session) : Session := { s with journal := s.journal.push .placeholder }

/-- Whether the cursor has moved on since a checkpoint. -/
def advancedFrom (s : Session) (c : Checkpoint) : Bool := decide (c.cursor < s.cursor)

/-- Turns the placeholder of a checkpoint into an opening and closes the node. -/
def complete (s : Session) (c : Checkpoint) (label : Label) : Session :=
  { s with journal := (s.journal.modify c.entry fun _ => .opening label).push .close }

/-- Keeps what was recorded since a checkpoint without a node around it. The
placeholder is removed if nothing follows it. -/
def abandon (s : Session) (c : Checkpoint) : Session :=
  if c.entry + 1 = s.journal.size then { s with journal := s.journal.pop } else s

/-- Removes what was recorded since a checkpoint and puts the cursor back. -/
def rollback (s : Session) (c : Checkpoint) : Session :=
  { s with cursor := c.cursor, journal := s.journal.shrink c.entry }

/-- Closes a checkpoint. -/
def close (s : Session) (c : Checkpoint) : Closing → Session
  | .node kind => s.complete c (.plain kind)
  | .error message => s.complete c (.failure message)
  | .splice => s.abandon c
  | .undo => s.rollback c

end Session

/-- Carries out a script in a session. -/
def Script.run {α : Type} : Script α → Session → α × Session
  | .pure a, s => (a, s)
  | .look next, s => (next s.view).run s
  | .bump next, s => next.run s.bump
  | .report m next, s => next.run (s.report m)
  | .scope body next, s =>
    let c := s.checkpoint
    match body.run s.opened with
    | ((closing, b), t) => (next b).run (t.close c closing)

theorem Script.run_bind {α β : Type} (p : Script α) (f : α → Script β) (s : Session) :
    (p >>= f).run s = (f (p.run s).1).run (p.run s).2 := by
  induction p generalizing s with
  | pure a => rfl
  | look next ih => exact ih _ _ s
  | bump next ih => exact ih _ _
  | report m next ih => exact ih _ _
  | scope body next _ ih => exact ih _ _ _

theorem Script.run_checkpoint {α : Type} (body : Script (Closing × α)) (s : Session) :
    (checkpoint body).run s =
      ((body.run s.opened).1.2, (body.run s.opened).2.close s.checkpoint (body.run s.opened).1.1) :=
  rfl

end TemplateTree

import TemplateTree.Grammar.Rule
import TemplateTree.Parse

/-!
# Steering a session

A session under the control of single commands instead of a grammar. It starts
with a checkpoint for the root of the tree and keeps a stack of the other open
checkpoints. Commands open and close checkpoints, take tokens, ask questions
and run single rules. At the end the checkpoints that are still open are
abandoned, innermost first, and the root is completed.
-/

namespace TemplateTree.Session

inductive Command where
  | start
  | complete (kind : Kind)
  | error (message : String)
  | abandon
  | rollback
  | drop
  | advanced
  | bump
  | report (message : String)
  | at (kind : Kind)
  | nth (n : Nat)
  | recovers
  | isPairAhead
  | rule (r : Grammar.Rule)
  | attempt (r : Grammar.Rule)
  | lookahead (r : Grammar.Rule)
  deriving DecidableEq, Repr

/-- Why a command is refused: a checkpoint must not be dropped without being
closed, and the place of a token must be a number that can be counted up to. -/
inductive Offence where
  | unclosed
  | uncountable
  deriving DecidableEq, Repr

def Offence.message : Offence → String
  | unclosed => "Marker must be completed, abandoned or rolled back"
  | uncountable => "attempt to add with overflow"

/-- What a command answers. -/
inductive Answer where
  | nothing
  | truth (b : Bool)
  | kind (k : Kind)
  | offence (o : Offence)
  deriving DecidableEq, Repr

/-- Tokens are counted with numbers that are smaller than this. -/
def countLimit : Nat := Nat.pow 2 64

/-- Kind of the token so many tokens ahead, if its place can be counted. -/
def kindAhead (s : Session) (n : Nat) : Answer :=
  if s.cursor + n < countLimit then .kind (s.ahead n) else .offence .uncountable

structure Steered where
  session : Session
  root : Checkpoint
  marks : List Checkpoint

namespace Steered

/-- A session with an open root. -/
def start (stream : TokenStream) (recovery : KindSet) : Steered :=
  let s := Session.start stream recovery
  ⟨s.opened, s.checkpoint, []⟩

/-- Closes the innermost checkpoint, if there is one. -/
def closeInnermost (s : Steered) (closing : Closing) : Steered :=
  match s.marks with
  | [] => s
  | c :: rest => { s with session := s.session.close c closing, marks := rest }

/-- Runs a script for its answer. -/
def runScript (s : Steered) (script : Script Bool) : Answer × Steered :=
  let (found, session) := script.run s.session
  (.truth found, { s with session := session })

/-- Carries out one command. -/
def step (s : Steered) : Command → Answer × Steered
  | .start =>
    (.nothing, { s with
      session := s.session.opened
      marks := s.session.checkpoint :: s.marks })
  | .complete kind => (.nothing, s.closeInnermost (.node kind))
  | .error message => (.nothing, s.closeInnermost (.error message))
  | .abandon => (.nothing, s.closeInnermost .splice)
  | .rollback => (.nothing, s.closeInnermost .undo)
  | .drop => (.offence .unclosed, { s with marks := s.marks.tail })
  | .advanced => (.truth (s.marks.head?.any s.session.advancedFrom), s)
  | .bump => (.nothing, { s with session := s.session.bump })
  | .report message => (.nothing, { s with session := s.session.report message })
  | .at kind => (.truth (s.session.current = kind), s)
  | .nth n => (s.session.kindAhead n, s)
  | .recovers => (.truth (s.session.recovery.contains s.session.current), s)
  | .isPairAhead => (.truth (Grammar.isPairAhead s.session.view), s)
  | .rule r => s.runScript r.script
  | .attempt r => s.runScript (.attempt r.script)
  | .lookahead r => s.runScript (.lookahead r.script)

/-- Ends the session with a template at its root. -/
def finish (s : Steered) : Except Builder.Fault Parse :=
  let session := s.marks.foldl Session.abandon s.session
  Parse.ofSession (session.complete s.root (.plain .template))

end Steered

end TemplateTree.Session

import TemplateTree.Session
import TemplateTree.Tree.Builder

/-!
# Replays

At the end of a session its journal is replayed into a builder, and the blank
tokens are put back. Blank tokens before a node go before that node if it
holds a token. A node that holds none is placed right behind the token before
it, so the blank tokens there go to whatever follows. Blank tokens at the end
of the input go into the root.
-/

namespace TemplateTree

/-- A replay under way: the builder, the number of tokens that it has got, and
the tokens that it has not got yet. -/
structure Replay where
  builder : Builder
  fed : Nat
  rest : List Token

namespace Replay

/-- Feeds up to `count` tokens. -/
def feed : Nat → Replay → Except Builder.Fault Replay
  | 0, r => .ok r
  | count + 1, r =>
    match r.rest with
    | [] => .ok r
    | t :: rest => do
      let builder ← r.builder.addToken t
      feed count ⟨builder, r.fed + 1, rest⟩

/-- Feeds the blank tokens that come next. -/
def feedTrivia (r : Replay) : Except Builder.Fault Replay :=
  r.feed (r.rest.takeWhile Token.isTrivia).length

/-- Feeds the tokens before the one with number `stop`. -/
def feedUpTo (r : Replay) (stop : Nat) : Except Builder.Fault Replay := r.feed (stop - r.fed)

def openNode (r : Replay) (label : Label) : Except Builder.Fault Replay := do
  return { r with builder := ← r.builder.openNode label }

def closeNode (r : Replay) : Except Builder.Fault Replay := do
  return { r with builder := ← r.builder.closeNode }

/-- Replays one entry of a journal, with the entries that stand behind it. -/
def step (stream : TokenStream) (behind : List Entry) (r : Replay) :
    Entry → Except Builder.Fault Replay
  | .placeholder => .ok r
  | .opening label => do
    let ready ←
      if 0 < r.builder.depth && Journal.coversToken (.opening label :: behind) then r.feedTrivia
      else .ok r
    ready.openNode label
  | .token number => r.feedUpTo (stream.significant[number]?.getD 0 + 1)
  | .close => do
    let ready ← if r.builder.depth = 1 then r.feedUpTo stream.tokens.size else .ok r
    ready.closeNode

/-- Replays the journal of a session over a stream. -/
def run (stream : TokenStream) : List Entry → Replay → Except Builder.Fault Replay
  | [], r => .ok r
  | e :: later, r => do run stream later (← r.step stream later e)

/-- Replays the front of a journal, with the entries that stand behind it. -/
def runFront (stream : TokenStream) (behind : List Entry) :
    List Entry → Replay → Except Builder.Fault Replay
  | [], r => .ok r
  | e :: later, r => do runFront stream behind later (← r.step stream (later ++ behind) e)

end Replay

/-- The tree that the journal of a session describes. -/
def Session.finish (s : Session) : Except Builder.Fault Tree := do
  let replay ←
    Replay.run s.stream s.journal.toList ⟨.start s.stream.text, 0, s.stream.tokens.toList⟩
  replay.builder.finish

end TemplateTree

import TemplateTree.Rose.Steps
import TemplateTree.Tree

/-!
# Builders

A builder grows a tree over a given text from left to right: nodes open and
close, and tokens are laid end to end inside them. A node is entered into the
table when it opens, and gets its children and its end when it closes. A step
that does not fit is refused and leaves the builder as it was.
-/

namespace TemplateTree

/-- An open node, with the children that it has so far. -/
structure Frame where
  node : Nat
  children : Array Element
  deriving Repr

/-- The innermost open node is the first frame. -/
structure Builder where
  text : String
  nodes : Array NodeRecord
  tokens : Array TokenRecord
  frames : List Frame
  offset : Nat
  deriving Repr

namespace Builder

/-- Why a step does not fit. -/
inductive Fault where
  | secondRoot
  | tokenOutside (kind : Kind)
  | tokenBeyond (kind : Kind)
  | offsetOverflow
  | nothingOpen
  | unfinished (count : Nat)
  | noRoot
  | uncovered (covered length : Nat)
  | dropped
  deriving DecidableEq, Repr

def Fault.message : Fault → String
  | secondRoot => "a syntax tree has exactly one root node"
  | tokenOutside kind => "token `" ++ kind.name ++ "` is outside of any node"
  | tokenBeyond kind => "token `" ++ kind.name ++ "` is out of bounds"
  | offsetOverflow => "attempt to add with overflow"
  | nothingOpen => "`finish_node` called without a matching `start_node`"
  | unfinished count => "unfinished nodes: " ++ toString count
  | noRoot => "a syntax tree needs a root node"
  | uncovered covered length =>
    "assertion `left == right` failed: tokens do not cover the text\n  left: " ++ toString covered
      ++ "\n right: " ++ toString length
  | dropped => "you should call `Builder::finish()`"

/-- A builder with nothing built. -/
def start (text : String) : Builder := ⟨text, #[], #[], [], 0⟩

/-- Number of open nodes. -/
def depth (b : Builder) : Nat := b.frames.length

/-- Opens a node inside the innermost open one. Only the first node has none around it. -/
def openNode (b : Builder) (label : Label) : Except Fault Builder :=
  if b.frames.isEmpty && !b.nodes.isEmpty then .error .secondRoot
  else
    let record := ⟨label, b.frames.head?.map (·.node), [], ⟨b.offset, b.offset⟩⟩
    .ok { b with nodes := b.nodes.push record, frames := ⟨b.nodes.size, #[]⟩ :: b.frames }

/-- Adds an element to the innermost open node. -/
def addChild (e : Element) : List Frame → List Frame
  | [] => []
  | f :: fs => { f with children := f.children.push e } :: fs

/-- Lays a token behind the last one. -/
def addToken (b : Builder) (t : Token) : Except Fault Builder :=
  match b.frames with
  | [] => .error (.tokenOutside t.kind)
  | f :: _ =>
    match advance? b.offset t.length with
    | none => .error .offsetOverflow
    | some stop =>
      if b.text.utf8ByteSize < stop then .error (.tokenBeyond t.kind)
      else
        .ok { b with
          tokens := b.tokens.push ⟨t.kind, ⟨b.offset, stop⟩, f.node⟩
          frames := addChild (.token b.tokens.size) b.frames
          offset := stop }

/-- Closes the innermost open node. -/
def closeNode (b : Builder) : Except Fault Builder :=
  match b.frames with
  | [] => .error .nothingOpen
  | f :: fs =>
    .ok { b with
      nodes := b.nodes.modify f.node fun r =>
        { r with children := f.children.toList, span := ⟨r.span.start, b.offset⟩ }
      frames := addChild (.node f.node) fs }

/-- The finished tree. -/
def finish (b : Builder) : Except Fault Tree :=
  if !b.frames.isEmpty then .error (.unfinished b.depth)
  else if b.nodes.isEmpty then .error .noRoot
  else if b.offset ≠ b.text.utf8ByteSize then .error (.uncovered b.offset b.text.utf8ByteSize)
  else .ok ⟨b.text, b.nodes, b.tokens⟩

/-- A builder may be given up while no node is open. -/
def drop (b : Builder) : Except Fault Unit :=
  if b.frames.isEmpty then .ok () else .error .dropped

/-- Carries out one step of a written-down tree. -/
def apply (b : Builder) : BuildStep → Except Fault Builder
  | .start label => b.openNode label
  | .token t => b.addToken t
  | .finish => b.closeNode

/-- Carries out steps one after the other. -/
def applyAll (b : Builder) (steps : List BuildStep) : Except Fault Builder :=
  steps.foldlM apply b

end Builder

end TemplateTree

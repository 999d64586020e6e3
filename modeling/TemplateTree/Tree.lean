import TemplateTree.Rose
import TemplateTree.Span

/-!
# Trees

A tree owns its text and two tables, one of nodes and one of tokens. Nodes are
numbered in the order in which they open, so the root is node zero and a node
has a smaller number than everything below it. Nodes link to their parent and
to their children, and every record has the span that it covers.

An element is a node or a token by its number. A number that is out of range
reads as an empty record; the elements that a tree hands out are in range.
-/

namespace TemplateTree

inductive Element where
  | node (index : Nat)
  | token (index : Nat)
  deriving DecidableEq, Repr, Inhabited

structure NodeRecord where
  label : Label
  parent : Option Nat
  children : List Element
  span : Span
  deriving DecidableEq, Repr, Inhabited

structure TokenRecord where
  kind : Kind
  span : Span
  parent : Nat
  deriving DecidableEq, Repr, Inhabited

structure Tree where
  text : String
  nodes : Array NodeRecord
  tokens : Array TokenRecord
  deriving DecidableEq, Repr, Inhabited

namespace Tree

def root : Element := .node 0

def node (t : Tree) (i : Nat) : NodeRecord := t.nodes[i]?.getD default

def token (t : Tree) (i : Nat) : TokenRecord := t.tokens[i]?.getD default

def kind (t : Tree) : Element → Kind
  | .node i => (t.node i).label.kind
  | .token i => (t.token i).kind

def span (t : Tree) : Element → Span
  | .node i => (t.node i).span
  | .token i => (t.token i).span

/-- The message of a node that failed. -/
def message? (t : Tree) : Element → Option String
  | .node i => (t.node i).label.message?
  | .token _ => none

/-- The piece of the text that an element covers. -/
def textOf? (t : Tree) (e : Element) : Option String := (t.span e).slice? t.text

/-- Kind and span of an element. -/
def caption (t : Tree) (e : Element) : String := (t.kind e).name ++ "@" ++ (t.span e).text

def parent? (t : Tree) : Element → Option Nat
  | .node i => (t.node i).parent
  | .token i => some (t.token i).parent

/-- A node and the nodes above it, up to `bound` in all. -/
def ancestorsUpTo (t : Tree) : Nat → Nat → List Nat
  | 0, _ => []
  | bound + 1, i =>
    match (t.node i).parent with
    | none => [i]
    | some p => i :: t.ancestorsUpTo bound p

/-- A node and the nodes above it, innermost first. -/
def ancestors (t : Tree) (i : Nat) : List Nat := t.ancestorsUpTo (i + 1) i

/-- Everything directly below a node. -/
def elements (t : Tree) (i : Nat) : List Element := (t.node i).children

/-- The nodes directly below a node. -/
def children (t : Tree) (i : Nat) : List Nat :=
  (t.elements i).filterMap fun
    | .node j => some j
    | .token _ => none

def firstChild? (t : Tree) (i : Nat) : Option Nat := (t.children i).head?

def isError (t : Tree) (i : Nat) : Bool := (t.node i).label.kind = .error

/-- Every error node, by number. -/
def errors (t : Tree) : List Nat := (List.range t.nodes.size).filter t.isError

/-- Message, if there is one, and span of every error. -/
def failures (t : Tree) : List (Span × Option String) :=
  t.errors.map fun i => ((t.node i).span, (t.node i).label.message?)

/-- The sizes of a tree on one line. -/
def summary (t : Tree) : String :=
  "SyntaxTree \x7b text_len: " ++ toString t.text.utf8ByteSize ++ ", nodes: "
    ++ toString t.nodes.size ++ ", tokens: " ++ toString t.tokens.size ++ ", .. \x7d"

end Tree

end TemplateTree

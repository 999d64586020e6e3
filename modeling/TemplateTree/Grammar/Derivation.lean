import TemplateTree.Rose

/-!
# Well-formed templates

The language of well-formed templates, written as data: a value of one of
these types is a derivation in the grammar. Each derivation has a yield, which
is the sequence of significant kinds that it derives, and the tree or forest
that a parse of its yield is expected to grow. Nothing here refers to how a
template is read.

* Path: an identifier, then any number of separators with an identifier each.
* Param: a path, a string, an integer or a boolean.
* Pair: an identifier, an equals sign and a param.
* Expression: a path, any number of params, any number of pairs.
* Statement: content, a comment, a mustache around an expression, a partial
  with one path or two, or a block, which is an opening tag around an
  expression, a program, and an end tag around a path.
* Program: nothing, or statements, or statements, an else tag and statements.
-/

namespace TemplateTree.Derivation

/-- A node around a single token of the same kind. -/
def leaf (kind : Kind) : Rose Kind := .node (.plain kind) [.token kind]

/-- The number of separators in a path determines it. -/
structure Path where
  separators : Nat
  deriving DecidableEq, Repr

namespace Path

def yield (p : Path) : List Kind :=
  .ident :: (List.replicate p.separators [Kind.separator, .ident]).flatten

def tree (p : Path) : Rose Kind :=
  .node (.plain .path)
    (leaf .ident :: (List.replicate p.separators [leaf .separator, leaf .ident]).flatten)

end Path

inductive Param where
  | path (p : Path)
  | string
  | integer
  | boolean
  deriving DecidableEq, Repr

namespace Param

def yield : Param → List Kind
  | path p => p.yield
  | string => [.string]
  | integer => [.integer]
  | boolean => [.boolean]

def tree : Param → Rose Kind
  | path p => .node (.plain .param) [p.tree]
  | string => .node (.plain .param) [leaf .string]
  | integer => .node (.plain .param) [leaf .integer]
  | boolean => .node (.plain .param) [leaf .boolean]

end Param

structure Pair where
  value : Param
  deriving DecidableEq, Repr

namespace Pair

def yield (p : Pair) : List Kind := .ident :: .equals :: p.value.yield

def tree (p : Pair) : Rose Kind :=
  .node (.plain .hashPair) [leaf .ident, leaf .equals, p.value.tree]

end Pair

structure Expression where
  path : Path
  params : List Param
  pairs : List Pair
  deriving DecidableEq, Repr

/-- A node around trees, unless there are none. -/
def wrapSome (kind : Kind) : List (Rose Kind) → List (Rose Kind)
  | [] => []
  | r :: rs => [.node (.plain kind) (r :: rs)]

namespace Expression

def yield (e : Expression) : List Kind :=
  e.path.yield ++ e.params.flatMap Param.yield ++ e.pairs.flatMap Pair.yield

def tree (e : Expression) : Rose Kind :=
  .node (.plain .expression)
    (e.path.tree :: (wrapSome .params (e.params.map Param.tree)
      ++ wrapSome .hash (e.pairs.map Pair.tree)))

end Expression

mutual

inductive Statement where
  | content
  | comment
  | mustache (raw : Bool) (e : Expression)
  | partialTag (name : Path) (context : Option Path)
  | block (inverse : Bool) (e : Expression) (body : Program) (name : Path)

inductive Statements where
  | last (s : Statement)
  | more (s : Statement) (rest : Statements)

inductive Program where
  | empty
  | plain (body : Statements)
  | alternative (body other : Statements)

end

/-- The delimiter that opens a mustache. -/
def mustacheOpening (raw : Bool) : Kind := if raw then .openRaw else .openValue

/-- The delimiter that opens a block. -/
def blockOpening (inverse : Bool) : Kind := if inverse then .openInverse else .openBlock

/-- The kind of the tag that opens a block. -/
def blockTag (inverse : Bool) : Kind := if inverse then .inverseTag else .blockTag

/-- The node of a tag. -/
def tag (node opening : Kind) (inside : List (Rose Kind)) : Rose Kind :=
  .node (.plain node) (leaf opening :: (inside ++ [leaf .close]))

mutual

def Statement.yield : Statement → List Kind
  | .content => [.content]
  | .comment => [.comment]
  | .mustache raw e => mustacheOpening raw :: (e.yield ++ [.close])
  | .partialTag name context =>
    .openPartial :: (name.yield ++ (context.map Path.yield).getD [] ++ [.close])
  | .block inverse e body name =>
    blockOpening inverse :: (e.yield ++ [.close]) ++ body.yield
      ++ .openEnd :: (name.yield ++ [.close])

def Statements.yield : Statements → List Kind
  | .last s => s.yield
  | .more s rest => s.yield ++ rest.yield

def Program.yield : Program → List Kind
  | .empty => []
  | .plain body => body.yield
  | .alternative body other => body.yield ++ [.openInverse, .close] ++ other.yield

end

mutual

/-- The trees of a statement, of which a block has several. -/
def Statement.forest : Statement → List (Rose Kind)
  | .content => [.token .content]
  | .comment => [leaf .comment]
  | .mustache raw e => [tag .mustache (mustacheOpening raw) [e.tree]]
  | .partialTag name context =>
    [tag .partialTag .openPartial (name.tree :: (context.map Path.tree).toList)]
  | .block inverse e body name =>
    tag (blockTag inverse) (blockOpening inverse) [e.tree]
      :: (body.forest ++ [tag .endTag .openEnd [name.tree]])

def Statements.forest : Statements → List (Rose Kind)
  | .last s => s.forest
  | .more s rest => s.forest ++ rest.forest

def Program.forest : Program → List (Rose Kind)
  | .empty => []
  | .plain body => [.node (.plain .statements) body.forest]
  | .alternative body other =>
    [.node (.plain .statements) body.forest,
      .node (.plain .elseTag) [leaf .openInverse, leaf .close],
      .node (.plain .statements) other.forest]

end

end TemplateTree.Derivation

import TemplateTree.Diagnostic
import TemplateTree.Grammar.Template
import TemplateTree.Replay
import TemplateTree.Tree.Outline

/-!
# Parses

A parse reads a token stream into a tree that covers every token, whether the
template is well formed or not, and lists a diagnostic for every error node of
the tree in document order.
-/

namespace TemplateTree

structure Options where
  /-- Kinds at which the skipping of unexpected tokens stops. -/
  recovery : KindSet
  deriving DecidableEq, Repr

namespace Options

def standard : Options := ⟨KindSet.syncPoints⟩

/-- The parts of the options by name. -/
def details (o : Options) : String := "ParseOptions \x7b recovery: " ++ o.recovery.text ++ " \x7d"

end Options

structure Parse where
  tree : Tree
  diagnostics : List Diagnostic
  deriving Repr

namespace Parse

inductive Fault where
  | invalidRoot (kind : Kind)
  | build (fault : Builder.Fault)
  deriving DecidableEq, Repr

/-- The short name of a fault, unless it comes from the builder. -/
def Fault.label? : Fault → Option String
  | invalidRoot _ => some "InvalidRoot"
  | build _ => none

def Fault.message : Fault → String
  | invalidRoot kind => "`" ++ kind.name ++ "` cannot label the root of a tree"
  | build fault => fault.message

def Fault.details : Fault → String
  | invalidRoot kind => "InvalidRoot(" ++ kind.name ++ ")"
  | build fault => fault.message

/-- The diagnostics of the error nodes of a tree. -/
def diagnosticsOf (t : Tree) : List Diagnostic :=
  t.failures.map fun f => ⟨f.2.getD "", f.1⟩

/-- Ends a session and collects its diagnostics. -/
def ofSession (s : Session) : Except Builder.Fault Parse := do
  let tree ← s.finish
  return ⟨tree, diagnosticsOf tree⟩

/-- Only composite kinds label a root. -/
def isRoot (kind : Kind) : Bool :=
  !(kind.isTerminal || kind = .endOfInput || kind = .error || kind = .placeholder)

/-- Reads a whole stream into one tree. -/
def run (stream : TokenStream) (root : Kind) (options : Options) : Except Builder.Fault Parse :=
  ofSession ((Grammar.template root).run (.start stream options.recovery)).2

/-- Reads a stream into a tree whose root has the given kind. -/
def ofStream (stream : TokenStream) (root : Kind) (options : Options) : Except Fault Parse :=
  if isRoot root then
    match run stream root options with
    | .ok parse => .ok parse
    | .error fault => .error (.build fault)
  else .error (.invalidRoot root)

/-- The outline of the tree and the list of diagnostics. -/
def outline? (p : Parse) : Option String :=
  p.tree.outline?.map fun outline =>
    outline ++ "Errors:\n"
      ++ String.join (p.diagnostics.map fun d => "  " ++ d.span.text ++ ": " ++ d.message ++ "\n")

/-- The snippets of all diagnostics, each followed by a line feed. -/
def renderErrors (p : Parse) (path : String) : Except Snippet.Fault String := do
  let snippets ← p.diagnostics.mapM fun d => d.render path p.tree.text
  return String.join (snippets.map (· ++ "\n"))

end Parse

end TemplateTree

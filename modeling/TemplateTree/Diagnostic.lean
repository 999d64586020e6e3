import TemplateTree.Snippet
import TemplateTree.Text.Quoted

/-!
# Diagnostics

A diagnostic is a problem with a place in the text of a template. It can be
shown as a snippet of that text.
-/

namespace TemplateTree

structure Diagnostic where
  message : String
  span : Span
  deriving DecidableEq, Repr

namespace Diagnostic

/-- What the mark of a diagnostic says: something is missing in an empty place. -/
def label (d : Diagnostic) : String := if d.span.isEmpty then "expected here" else "here"

/-- The parts of a diagnostic by name. -/
def details (d : Diagnostic) : String :=
  "Diagnostic \x7b message: " ++ Text.quoted d.message ++ ", range: " ++ d.span.text ++ " \x7d"

/-- The snippet of a diagnostic in a text of the given name. -/
def render (d : Diagnostic) (path text : String) : Except Snippet.Fault String :=
  Snippet.render d.message path d.span d.label text

end Diagnostic

end TemplateTree

import TemplateTree.Text.Quoted
import TemplateTree.Tree.Walk

/-!
# Outlines

An outline lists the elements of a tree in document order, one on a line,
indented by two blanks for every node above it. A line holds the kind and the
span, then the quoted message of an error or the quoted text of a token. There
is no outline if the span of a token cuts a character in two.
-/

namespace TemplateTree.Tree

/-- The elements that a walk enters, with the number of open nodes around each,
`depth` being that number at its start. -/
def depths (depth : Nat) : List WalkStep → List (Nat × Element)
  | [] => []
  | .enter (.node i) :: rest => (depth, .node i) :: depths (depth + 1) rest
  | .enter (.token i) :: rest => (depth, .token i) :: depths depth rest
  | .leave (.node _) :: rest => depths (depth - 1) rest
  | .leave (.token _) :: rest => depths depth rest

/-- What stands behind kind and span on the line of an element. -/
def remark? (t : Tree) : Element → Option String
  | .node i => some <|
    match (t.node i).label.message? with
    | none => ""
    | some m => " " ++ Text.quoted m
  | .token i => (t.textOf? (.token i)).map fun s => " " ++ Text.quoted s

def line? (t : Tree) (depth : Nat) (e : Element) : Option String :=
  (t.remark? e).map fun remark =>
    String.ofList (List.replicate (2 * depth) ' ') ++ t.caption e ++ remark

/-- The lines of an outline. -/
def lines? (t : Tree) : Option (List String) :=
  (depths 0 (t.walk root)).mapM fun p => t.line? p.1 p.2

/-- The outline, each line ended by a line feed. -/
def outline? (t : Tree) : Option String :=
  t.lines?.map fun lines => String.join (lines.map (· ++ "\n"))

end TemplateTree.Tree

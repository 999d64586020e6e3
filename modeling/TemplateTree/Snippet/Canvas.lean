/-!
# Canvases

A canvas row is a row of character cells. Writing overwrites what is there,
and pads the row with blanks up to the first cell written. Writing nothing
leaves the row as it is.
-/

namespace TemplateTree.Snippet

/-- Writes a run of characters into a row from a column on. -/
def put (row : List Char) (column : Nat) (cs : List Char) : List Char :=
  if cs.isEmpty then row
  else
    row.take column ++ List.replicate (column - row.length) ' ' ++ cs
      ++ row.drop (column + cs.length)

/-- Writes a character into the cells from `first` up to, but not including, `stop`. -/
def fill (row : List Char) (first stop : Nat) (c : Char) : List Char :=
  put row first (List.replicate (stop - first) c)

end TemplateTree.Snippet

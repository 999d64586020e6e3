import TemplateTree.Snippet.Canvas
import TemplateTree.Snippet.Window

/-!
# Snippets

How an error is shown: a title, the place in the text, and the lines that the
error touches, with line numbers to their left and a mark below or beside the
characters in question. A tab takes four cells and controls of the writing
direction none; any other character takes one cell, while the place of a mark
is counted in columns. The lines are shown through a window, and dots stand for
what lies outside of it; of lines that hold nothing but white space only the
dots are left.
-/

namespace TemplateTree.Snippet

/-- What stands for the parts of a line that are left out. -/
def dots : List Char := ['.', '.', '.']

/-- What is shown of a line. -/
def shown (cs : List Char) : List Char :=
  cs.flatMap fun c =>
    if c = '\t' then [' ', ' ', ' ', ' ']
    else if c.toNat = 0x200d || (0x202a ≤ c.toNat && c.toNat ≤ 0x202e)
        || (0x2066 ≤ c.toNat && c.toNat ≤ 0x2069) then []
    else [c]

/-- Where things stand in the rows of a snippet. -/
structure Layout where
  /-- Digits of the greatest line number. -/
  digits : Nat
  multi : Bool
  window : Window
  label : List Char

namespace Layout

/-- Column of the bar of a mark that runs over several lines. -/
def bar (o : Layout) : Nat := o.digits + 3

/-- Column at which the lines start. -/
def body (o : Layout) : Nat := if o.multi then o.bar + 2 else o.bar

/-- A row that holds only the bar behind the line numbers. -/
def gutter (o : Layout) : List Char := put [] (o.digits + 1) ['|']

/-- The row of a line itself, without a mark. The dots behind the line overwrite its end. -/
def lineRow (o : Layout) (l : Line) : List Char :=
  let number := (toString l.number).toList
  let cs := shown l.chars
  let seen := o.window.seen cs
  let row := put (put o.gutter (o.digits - number.length) number) o.body seen
  let row := if o.window.cutsBefore then put row o.body dots else row
  if o.window.cutsBehind cs then put row (o.body + cells seen - dots.length) dots else row

/-- The columns by which a mark moves to the left with its line. -/
def shift (o : Layout) (l : Line) : Nat := cells (o.window.hidden (shown l.chars))

/-- The carets of a mark. -/
def carets (o : Layout) (l : Line) (first last : Nat) (row : List Char) : List Char :=
  (List.range' first (last - first)).foldl
    (fun row p => put row (o.body + p - o.shift l) ['^']) row

/-- The line that leads from the bar to a mark. -/
def lead (o : Layout) (l : Line) (first : Nat) (row : List Char) : List Char :=
  fill row (o.bar + 1) (o.body + first - o.shift l + 1) '_'

/-- The label behind a mark. -/
def labelled (o : Layout) (l : Line) (last : Nat) (row : List Char) : List Char :=
  put row (o.body + (last + 1 - o.shift l)) o.label

/-- The rows of a line with its mark. -/
def markedRows (o : Layout) (l : Line) : Mark → List (List Char)
  | .single first last =>
    [o.lineRow l, o.carets l first last (o.labelled l last o.gutter)]
  | .start first last =>
    if ((shown l.chars).take first).all isWhite then [put (o.lineRow l) o.bar ['/']]
    else [o.lineRow l, o.carets l first last (o.lead l first o.gutter)]
  | .through => [put (o.lineRow l) o.bar ['|']]
  | .stop first last =>
    [put (o.lineRow l) o.bar ['|'],
      o.carets l first last (o.labelled l last (put (o.lead l first o.gutter) o.bar ['|']))]

def rows (o : Layout) : Row → List (List Char)
  | .line l mark => o.markedRows l mark
  | .fold => [put dots o.bar ['|']]

end Layout

/-- Digits of the greatest line number that is shown. -/
def digitsOf (rows : List Row) : Nat :=
  rows.foldl (fun n r =>
    match r with
    | .line l _ => max n (toString l.number).length
    | .fold => n) 0

/-- Rows of cells as text, with line feeds between them. -/
def joined (rows : List (List Char)) : String := "\n".intercalate (rows.map String.ofList)

/-- Columns that the line numbers of an excerpt and what stands beside them take
from the screen, as if the line behind the last one had its number there too. -/
def marginOf (e : Excerpt) : Nat := (toString e.next).length + 3

/-- The snippet of an error in a text, `path` being the name of the text. -/
def render (message path : String) (span : Span) (label text : String) : Except Fault String := do
  let e := Excerpt.of text span
  let window ← Window.of (screen - marginOf e) (bytes label.toList) e.extent
  let o : Layout := ⟨digitsOf e.rows, e.multi, window, label.toList⟩
  let title := "error" ++ if message.isEmpty then "" else ": " ++ message
  let origin := put (put [] o.digits ['-', '-', '>']) (o.digits + 4) path.toList
  let place := ":" ++ toString e.place.1 ++ ":" ++ toString e.place.2
  return joined
    ([title.toList, origin ++ place.toList, o.gutter] ++ e.rows.flatMap o.rows ++ [o.gutter])

end TemplateTree.Snippet

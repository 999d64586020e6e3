import TemplateTree.Snippet.Excerpt

/-!
# Windows

Lines that are too long for the screen are shown through a window, which is
the same for all lines of an excerpt. It leaves out indentation that all lines
share before it leaves out anything else, and it is laid so that the marks and
the label stay in sight as long as they fit. Dots stand for what is left out.

What is left out in front is counted in characters, what a line may hold is
counted in bytes, and what of it fits behind the front is counted in columns.
-/

namespace TemplateTree.Snippet

/-- Columns of a character on the screen, on which a control character takes one. -/
def cell (c : Char) : Nat := if Text.isControl c then 1 else Text.width c

/-- Columns of a run of characters on the screen. -/
def cells (cs : List Char) : Nat := total cell cs

/-- The longest front of a run of characters that fits into so many columns. -/
def fitting (room : Nat) : List Char → List Char
  | [] => []
  | c :: cs => if cell c ≤ room then c :: fitting (room - cell c) cs else []

theorem cells_fitting_le (room : Nat) (cs : List Char) : cells (fitting room cs) ≤ room := by
  induction cs generalizing room with
  | nil => simp [fitting, cells]
  | cons c cs ih =>
    rw [fitting]
    split
    · have h := ih (room - cell c)
      simp only [cells, total_cons] at h ⊢
      omega
    · simp [cells]

/-- Columns of a screen. -/
def screen : Nat := 140

/-- Columns kept free around a mark, so that dots beside it do not touch it. -/
def padding : Nat := 6

/-- Shared indentation up to this is shown in full. -/
def indentLimit : Nat := 20

/-- What is left of shared indentation that is longer. -/
def indentKept : Nat := 4

/-- Why no window can be laid: a label may end inside the indentation that
would be left out in front of it, and then its place in the window is negative. -/
inductive Fault where
  | labelBeforeWindow
  deriving DecidableEq, Repr

def Fault.message : Fault → String
  | labelBeforeWindow => "attempt to subtract with overflow"

structure Window where
  /-- Characters left out in front of a line. -/
  left : Nat
  /-- End of the window in a line that does not fit into it. -/
  right : Nat
  /-- A line that ends up to here is not cut behind. -/
  edge : Nat
  /-- Columns of the window. -/
  room : Nat
  deriving DecidableEq, Repr

namespace Window

/-- A window in which nothing but dots is seen of lines of up to so many bytes.
It starts behind all of them, for a line grows at most to four times its bytes
when its tabs become blanks. -/
def behind (length room : Nat) : Window :=
  let left := 4 * length + 1
  ⟨left, left, left, room⟩

/-- The window on lines of an extent under a label of so many bytes. Lines that
fit into it behind what is kept of their indentation are shown in full. If they
do not, the window starts behind the indentation if the label ends in it then;
if not, the marks and the label lie in the middle of it; if they do not fit, the
marks do, with less room to their left than to their right; and marks that do
not fit either are all that is shown. -/
def of (room label : Nat) (e : Extent) : Except Fault Window :=
  match e.indent? with
  | none => .ok (behind e.length room)
  | some indent =>
    let indent := indent - padding
    let first := e.first - padding
    let last := e.last + padding
    let label := e.last + (label + 1) + padding
    let window (left right : Nat) : Window :=
      ⟨left, right, if right = last || right = label then right - padding else right, room⟩
    let left := if indentLimit < indent then indent - (indentLimit - indentKept) else 0
    if e.length - left ≤ room then .ok (window left (max e.length left))
    else if label < indent then .error .labelBeforeWindow
    else if label - indent ≤ room then .ok (window indent (indent + room))
    else if label - first ≤ room then
      let left := first - (room - (label - first)) / 2
      .ok (window left (left + room))
    else if last - first ≤ room then
      let left := first - (room - (last - first)) / 5 * 2
      .ok (window left (left + room))
    else .ok (window first last)

/-- What a line has in front of the window. -/
def hidden (w : Window) (cs : List Char) : List Char := cs.take (min w.left (bytes cs))

/-- What of a line is seen. -/
def seen (w : Window) (cs : List Char) : List Char :=
  let length := bytes cs
  let left := min w.left length
  let right := if length - w.left ≤ w.room then length else min length w.right
  fitting (right - left) (cs.drop left)

/-- Whether dots stand for the front of the lines, also of those that have none. -/
def cutsBefore (w : Window) : Bool := decide (0 < w.left)

/-- Whether dots stand for the end of a line. -/
def cutsBehind (w : Window) (cs : List Char) : Bool :=
  decide (w.edge < bytes cs) && decide (w.left + w.room < bytes cs)

end Window

end TemplateTree.Snippet

import TemplateTree.Span
import TemplateTree.Text.Width

/-!
# Excerpts

The lines of a text that a span touches, each with the part of the mark that
belongs to it. A mark lies on one line, or it starts on one, runs through
others and ends on another; of more than three lines that it runs through only
the first and the last are kept, with a fold between them.
-/

namespace TemplateTree.Snippet

/-- A text cut at its line feeds, which are left out. -/
def pieces : List Char → List (List Char)
  | [] => [[]]
  | c :: cs =>
    match pieces cs with
    | [] => [[c]]
    | p :: ps => if c = '\n' then [] :: p :: ps else (c :: p) :: ps

/-- Length in bytes. -/
def bytes (cs : List Char) : Nat := total Char.utf8Size cs

/-- A line without its ending, which has `ending` bytes. -/
structure Line where
  number : Nat
  start : Nat
  chars : List Char
  ending : Nat
  deriving Repr

namespace Line

/-- Offset of the end of a line without its ending. -/
def stop (l : Line) : Nat := l.start + bytes l.chars

/-- A mark that reaches beyond this offset goes on behind the line. -/
def reach (l : Line) : Nat := l.stop + max l.ending 1

end Line

/-- The characters of a run that start before an offset, the run starting at `start`. -/
def charsBefore (start offset : Nat) : List Char → List Char
  | [] => []
  | c :: cs => if start < offset then c :: charsBefore (start + c.utf8Size) offset cs else []

/-- Columns of a line before an offset. -/
def Line.columnsBefore (l : Line) (offset : Nat) : Nat :=
  Text.columns (charsBefore l.start offset l.chars)

/-- The pieces from the one on which a span starts, the number of the first of
them, and the span counted from there. -/
def dropBefore (number : Nat) (s : Span) : List (List Char) → Nat × Span × List (List Char)
  | p :: q :: ps =>
    if bytes p < s.start then
      let skipped := bytes p + 1
      dropBefore (number + 1) ⟨s.start - skipped, s.stop - skipped⟩ (q :: ps)
    else (number, s, p :: q :: ps)
  | ps => (number, s, ps)

/-- The pieces up to the first that reaches an offset, the first one starting at `start`. -/
def keepThrough (start offset : Nat) : List (List Char) → List (List Char)
  | [] => []
  | p :: ps =>
    if offset ≤ start + bytes p then [p]
    else p :: keepThrough (start + bytes p + 1) offset ps

/-- The lines that pieces make. A carriage return before a line feed is part of
the ending. What follows the last line feed is a line only if it is not empty. -/
def linesOf (number start : Nat) : List (List Char) → List Line
  | [] => []
  | [p] => if p.isEmpty then [] else [⟨number, start, p, 0⟩]
  | p :: q :: ps =>
    let line : Line :=
      if p.getLast? = some '\r' then ⟨number, start, p.dropLast, 2⟩ else ⟨number, start, p, 1⟩
    line :: linesOf (number + 1) (start + bytes p + 1) (q :: ps)

/-- What a mark does on a line, with its first column and the one behind its last. -/
inductive Mark where
  | single (first last : Nat)
  | start (first last : Nat)
  | through
  | stop (first last : Nat)
  deriving DecidableEq, Repr

/-- Where a mark has an end on a line, its first column and the one behind its last. -/
def Mark.ends? : Mark → Option (Nat × Nat)
  | .single first last => some (first, last)
  | .start first last => some (first, last)
  | .through => none
  | .stop first last => some (first, last)

/-- The lines behind the start of a mark, up to the one on which it ends. -/
def markRest (s : Span) : List Line → List (Line × Mark)
  | [] => []
  | l :: ls =>
    if l.reach < s.stop then (l, .through) :: markRest s ls
    else
      let first := (l.columnsBefore s.stop - 1) + if l.stop < s.stop then 1 else 0
      [(l, .stop first (first + 1))]

/-- The lines of a mark. -/
def marked (s : Span) : List Line → List (Line × Mark)
  | [] => []
  | l :: ls =>
    let first := l.columnsBefore s.start
    let last := l.columnsBefore s.stop
    if s.stop ≤ l.reach then [(l, .single first (if last = first then first + 1 else last))]
    else (l, .start first (first + 1)) :: markRest s ls

/-- A row of an excerpt: a line, or a fold in the place of several. -/
inductive Row where
  | line (line : Line) (mark : Mark)
  | fold
  deriving Repr

/-- Puts a fold in the place of all but the first and the last of more than
three lines that a mark runs through. -/
def folded (lines : List (Line × Mark)) : List Row :=
  let rows := lines.map fun p => Row.line p.1 p.2
  let inner := lines.filter fun p => p.2 = .through
  if 3 < inner.length then
    rows.take 2 ++ [.fold] ++ rows.drop inner.length
  else rows

/-- White space between words and lines. -/
def isWhite (c : Char) : Bool :=
  c.toNat = 0x20 || (9 ≤ c.toNat && c.toNat ≤ 0xd) || c.toNat = 0x85 || c.toNat = 0xa0
    || c.toNat = 0x1680 || (0x2000 ≤ c.toNat && c.toNat ≤ 0x200a) || c.toNat = 0x2028
    || c.toNat = 0x2029 || c.toNat = 0x202f || c.toNat = 0x205f || c.toNat = 0x3000

/-- Columns of the white space in front of a line. A tab takes four. -/
def Line.indent (l : Line) : Nat :=
  total (fun c => if c = '\t' then 4 else 1) (l.chars.takeWhile isWhite)

/-- How far the lines of an excerpt and the marks on them extend. -/
structure Extent where
  /-- Least indentation of a line that does not consist of white space. -/
  indent? : Option Nat
  /-- Bytes of the longest line. -/
  length : Nat
  /-- First column of the marks and the one behind their last. -/
  first : Nat
  last : Nat
  deriving DecidableEq, Repr

/-- The extent of lines with these marks on them. -/
def Extent.of (lines : List Line) (marks : List Mark) : Extent :=
  let ends := marks.filterMap Mark.ends?
  { indent? := ((lines.filter fun l => !l.chars.all isWhite).map Line.indent).min?
    length := (lines.map fun l => bytes l.chars).max?.getD 0
    first := (ends.map (·.1)).min?.getD 0
    last := (ends.map (·.2)).max?.getD 0 }

structure Excerpt where
  rows : List Row
  /-- Number of the first line and first column of the mark on it, in characters. -/
  place : Nat × Nat
  /-- Number of the line behind the last one. -/
  next : Nat
  extent : Extent
  multi : Bool
  deriving Repr

/-- The excerpt of a text for a span. -/
def Excerpt.of (text : String) (span : Span) : Excerpt :=
  let (number, s, ps) := dropBefore 1 span (pieces text.toList)
  let lines := linesOf number 0 (keepThrough 0 s.stop ps)
  let marks := marked s lines
  { rows := folded marks
    place :=
      match lines with
      | [] => (1, 1)
      | l :: _ => (l.number, 1 + (charsBefore l.start s.start l.chars).length)
    next := number + lines.length
    extent := Extent.of lines (marks.map (·.2))
    multi := match marks with
      | (_, .start ..) :: _ => true
      | _ => false }

end TemplateTree.Snippet

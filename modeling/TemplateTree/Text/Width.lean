import TemplateTree.Text.Extending
import TemplateTree.Text.Quoted
import TemplateTree.Text.Wide
import TemplateTree.Total

/-!
# Columns of a terminal

How many columns a character takes: none for control characters, for
characters that join their neighbour and for those that are not displayed,
two for wide ones, one for all others.
-/

namespace TemplateTree.Text

/-- Characters that a display leaves out, and the vowels and final consonants
of conjoining Hangul, which share the columns of the syllable they complete. -/
def undisplayed : List (Nat × Nat) :=
  [(0xad, 0xad), (0x61c, 0x61c), (0x1160, 0x11ff), (0x180b, 0x180f), (0x200b, 0x200f),
  (0x202a, 0x202e), (0x2060, 0x206f), (0x3164, 0x3164), (0xd7b0, 0xd7c6), (0xd7cb, 0xd7fb),
  (0xfe00, 0xfe0f), (0xfeff, 0xfeff), (0xffa0, 0xffa0), (0xfff0, 0xfff8), (0x1bca0, 0x1bca3),
  (0x1d173, 0x1d17a), (0xe0000, 0xe0fff)]

def isControl (c : Char) : Bool :=
  decide (c.toNat < 0x20) || (decide (0x7f ≤ c.toNat) && decide (c.toNat < 0xa0))

def width (c : Char) : Nat :=
  if isControl c then 0
  else if c.toNat < 0x7f then 1
  else if inRanges extending c || inRanges undisplayed c then 0
  else if inRanges wide c then 2
  else 1

/-- Columns of a run of characters. -/
def columns (cs : List Char) : Nat := total width cs

end TemplateTree.Text

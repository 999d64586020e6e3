import TemplateTree.Text.Extending
import TemplateTree.Text.Unprintable

/-!
# Quoted text

A text is shown between double quotes on a single line. A quote, a backslash,
a tab, a line end and the null character are written as a backslash and one
character; any other character without a printed form of its own, and any
character that would join the one before it, is written as its code point in
hexadecimal digits between braces. All other characters stand for themselves.
Each character is written independently of its neighbours.
-/

namespace TemplateTree.Text

/-- Membership of a code point in a list of ranges. -/
def inRanges (ranges : List (Nat × Nat)) (c : Char) : Bool :=
  ranges.any fun r => decide (r.1 ≤ c.toNat) && decide (c.toNat ≤ r.2)

/-- Visible ASCII characters and the blank are printed without a look at the tables. -/
def isPrinted (c : Char) : Bool :=
  (decide (' ' ≤ c) && decide (c ≤ '~')) || !(inRanges extending c || inRanges unprintable c)

/-- The written form of one character. -/
def escape (c : Char) : List Char :=
  match c with
  | '\x00' => ['\\', '0']
  | '\t' => ['\\', 't']
  | '\n' => ['\\', 'n']
  | '\r' => ['\\', 'r']
  | '"' => ['\\', '"']
  | '\\' => ['\\', '\\']
  | c =>
    if isPrinted c then [c]
    else '\\' :: 'u' :: '\x7b' :: (Nat.toDigits 16 c.toNat ++ ['\x7d'])

/-- A text between double quotes. -/
def quoted (s : String) : String :=
  String.ofList ('"' :: (s.toList.flatMap escape ++ ['"']))

end TemplateTree.Text

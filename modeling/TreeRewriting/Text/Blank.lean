/-
TreeRewriting/Text/Blank.lean

Blank characters, and text without the blanks around it.

The class is the Unicode property White_Space: tabs, line ends and spaces of
every width, the no-break ones included.
-/
import TreeRewriting.Text.CodePoints

namespace TreeRewriting

/-- The code points with the property White_Space. -/
def whiteSpace : CodePoints := ⟨[
  9, 14, 32, 33, 133, 134, 160, 161, 5760, 5761, 8192, 8203, 8232, 8234, 8239, 8240, 8287, 8288,
  12288, 12289]⟩

/-- A blank character separates tokens and has no meaning of its own. -/
def isBlank (c : Char) : Bool := whiteSpace.contains c

/-- The text without the blanks at its two ends. -/
def trimBlanks (cs : List Char) : List Char :=
  ((cs.dropWhile isBlank).reverse.dropWhile isBlank).reverse

end TreeRewriting

/-
TreeRewriting/Pattern/Token.lean

The tokens of a pattern.

A token is a label, a mark, or a character that belongs to neither.  Labels are
as long as they can be.  Blanks separate tokens and are dropped.  Each token
comes with its offset, in bytes of the text in UTF-8.
-/
import TreeRewriting.Pattern.Shape
import TreeRewriting.Text.Blank
import TreeRewriting.Text.Letters

namespace TreeRewriting.Pattern

/-- A piece of a pattern's text. -/
inductive Token where
  | label (first : Char) (rest : List Char)
  | opening (o : Order)
  | closing (o : Order)
  | comma
  | stray (c : Char)
  deriving DecidableEq

/-- The first character of a token. -/
def Token.head : Token → Char
  | .label c _ => c
  | .opening o => o.opening
  | .closing o => o.closing
  | .comma => ','
  | .stray c => c

/-- A token and where it starts. -/
structure Lexeme where
  token : Token
  offset : Nat
  deriving DecidableEq

/-- The number of bytes of a text in UTF-8. -/
def byteLength : List Char → Nat
  | [] => 0
  | c :: cs => c.utf8Size + byteLength cs

/-- The token that a character makes by itself. -/
def Token.ofChar (c : Char) : Token :=
  if c = Order.opening .fixed then .opening .fixed
  else if c = Order.closing .fixed then .closing .fixed
  else if c = Order.opening .free then .opening .free
  else if c = Order.closing .free then .closing .free
  else if c = ',' then .comma
  else .stray c

/-- The tokens of a text that starts at the given offset. -/
def lexemes (offset : Nat) : List Char → List Lexeme
  | [] => []
  | c :: cs =>
    if isBlank c then lexemes (offset + c.utf8Size) cs
    else if startsLabel c then
      let rest := cs.takeWhile continuesLabel
      ⟨.label c rest, offset⟩ ::
        lexemes (offset + c.utf8Size + byteLength rest) (cs.dropWhile continuesLabel)
    else ⟨Token.ofChar c, offset⟩ :: lexemes (offset + c.utf8Size) cs
termination_by cs => cs.length
decreasing_by
  · simp
  · have := (List.dropWhile_sublist continuesLabel (l := cs)).length_le
    simp only [List.length_cons]
    omega
  · simp

end TreeRewriting.Pattern

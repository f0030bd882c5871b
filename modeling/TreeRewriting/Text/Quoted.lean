/-
TreeRewriting/Text/Quoted.lean

Quoted text, as messages write it.

A string stands between double quotes and a character between single ones.  The
backslash, the quote in use, the null character, tabs and line ends have a
short escape; every other character that does not show itself is written as its
code point in hexadecimal digits between braces.
-/
import TreeRewriting.Text.Printable

namespace TreeRewriting.Quoted

/-- The hexadecimal digits of a number, lower case, without leading zeros. -/
def hexDigits (n : Nat) : List Char := Nat.toDigits 16 n

/-- One character as it stands between two of the given quotes. -/
def escape (quote c : Char) : List Char :=
  if c = '\x00' then ['\\', '0']
  else if c = '\t' then ['\\', 't']
  else if c = '\n' then ['\\', 'n']
  else if c = '\r' then ['\\', 'r']
  else if c = '\\' then ['\\', '\\']
  else if c = quote then ['\\', quote]
  else if showsItself c then [c]
  else ['\\', 'u', '\x7b'] ++ hexDigits c.toNat ++ ['\x7d']

/-- A string between double quotes. -/
def string (s : String) : String :=
  String.ofList ('"' :: s.toList.flatMap (escape '"') ++ ['"'])

/-- A character between single quotes. -/
def char (c : Char) : String :=
  String.ofList ('\'' :: escape '\'' c ++ ['\''])

/-- A character that may be missing. -/
def char? : Option Char → String
  | some c => "Some(" ++ char c ++ ")"
  | none => "None"

end TreeRewriting.Quoted

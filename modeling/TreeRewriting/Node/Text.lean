/-
TreeRewriting/Node/Text.lean

The text of a tree.

An operator and its operands stand in parentheses, the operator first; leaves
are written as they are.  A variable of an expression is a small x and its
number, a variable of a term a capital one.
-/
import TreeRewriting.Node.Tree
import TreeRewriting.Text.Shortest

namespace TreeRewriting

/-- The text of a payload. -/
def Leaf.text : Leaf → String
  | .number x => numberText x
  | .bool b => if b then "true" else "false"
  | .var i => "x" ++ toString i
  | .predicate l => l.text

/-- The word or sign for an operator. -/
def UnaryOp.sign : UnaryOp → String
  | .negate => "neg"
  | .ln => "ln"
  | .not => "not"

/-- The word or sign for an operator. -/
def BinaryOp.sign : BinaryOp → String
  | .plus => "+"
  | .product => "*"
  | .power => "^"
  | .differentiate => "d"
  | .and => "and"
  | .or => "or"

/-- The word for an operator. -/
def NaryOp.sign : NaryOp → String
  | .clause => "clause"
  | .clauseSet => "clauses"

namespace Node

mutual

/-- The text of a tree. -/
def text : Node → String
  | .leaf l => l.text
  | .unary op x => "(" ++ op.sign ++ " " ++ text x ++ ")"
  | .binary op a b => "(" ++ op.sign ++ " " ++ text a ++ " " ++ text b ++ ")"
  | .nary op xs => "(" ++ op.sign ++ textRest xs ++ ")"

/-- The texts of operands, each after a space. -/
def textRest : List Node → String
  | [] => ""
  | x :: xs => " " ++ text x ++ textRest xs

end

end Node

end TreeRewriting

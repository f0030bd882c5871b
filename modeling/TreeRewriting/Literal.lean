/-
TreeRewriting/Literal.lean

Literals: a predicate name applied to terms, possibly negated.

Two literals are complementary when exactly one of them is negated; nothing is
asked of their names or arguments.
-/
import TreeRewriting.Term

namespace TreeRewriting

/-- A predicate applied to terms, possibly negated. -/
structure Literal where
  name : String
  args : List Term
  negated : Bool
  deriving DecidableEq, Inhabited

namespace Literal

/-- The number of arguments. -/
def arity (l : Literal) : Nat := l.args.length

/-- The literal of the other polarity. -/
def negate (l : Literal) : Literal := { l with negated := !l.negated }

/-- Exactly one of the two literals is negated. -/
def complementary (a b : Literal) : Bool := a.negated != b.negated

/-- The text of a literal: a tilde if it is negated, the name, and the arguments in
parentheses, which stand there also when there are none. -/
def text (l : Literal) : String :=
  (if l.negated then "~" else "") ++ l.name ++ "(" ++ Term.textList l.args ++ ")"

@[simp] theorem negate_negate (l : Literal) : l.negate.negate = l := by
  simp [negate]

end Literal

end TreeRewriting

/-
TreeRewriting/Node/Evaluation.lean

Values of trees.

Design.  Arithmetic is a parameter: a meaning for constants and five operations
on any type of values.  The program evaluates in binary64; the same evaluator
over a ring says what an expression means exactly.  A tree has no numeric value
when it holds a connective, a literal or a derivative, or a variable that the
environment leaves out, and it has no truth value when it holds anything but
connectives, truth constants and variables of the environment.
-/
import TreeRewriting.Node.Tree

namespace TreeRewriting

universe u

/-- A meaning for constants and arithmetic operators. -/
structure Arithmetic (R : Type u) where
  const : Number → R
  neg : R → R
  ln : R → R
  add : R → R → R
  mul : R → R → R
  pow : R → R → R

/-- Arithmetic of binary64. -/
def Arithmetic.binary64 : Arithmetic Number where
  const x := x
  neg x := -x
  ln x := x.log
  add x y := x + y
  mul x y := x * y
  pow x y := x.pow y

namespace Node

/-- The value of a tree in an arithmetic, where the environment gives variables their
values. -/
def eval {R : Type u} (A : Arithmetic R) (env : Nat → Option R) : Node → Option R
  | .leaf (.number x) => some (A.const x)
  | .leaf (.var i) => env i
  | .leaf _ => none
  | .unary .negate x => (eval A env x).map A.neg
  | .unary .ln x => (eval A env x).map A.ln
  | .unary .not _ => none
  | .binary .plus a b =>
    (eval A env a).bind fun u => (eval A env b).map fun v => A.add u v
  | .binary .product a b =>
    (eval A env a).bind fun u => (eval A env b).map fun v => A.mul u v
  | .binary .power a b =>
    (eval A env a).bind fun u => (eval A env b).map fun v => A.pow u v
  | .binary _ _ _ => none
  | .nary _ _ => none

/-- The truth value of a tree.  The second operand of a connective is not looked at when
the first decides. -/
def evalBool (env : Nat → Option Bool) : Node → Option Bool
  | .leaf (.bool b) => some b
  | .leaf (.var i) => env i
  | .leaf _ => none
  | .unary .not x => (evalBool env x).map Bool.not
  | .unary _ _ => none
  | .binary .and a b =>
    (evalBool env a).bind fun u => if u then evalBool env b else some false
  | .binary .or a b =>
    (evalBool env a).bind fun u => if u then some true else evalBool env b
  | .binary _ _ _ => none
  | .nary _ _ => none

end Node

end TreeRewriting

/-
TreeRewriting/Node/Equality.lean

Equality of trees: by comparing numbers, and up to renaming of variables.

Design.  Two trees are equal up to renaming when one becomes the other by a
one-to-one exchange of variables; the variables of expressions and those of
terms are exchanged together.  The exchange is not known beforehand.  It is
found on a single walk over both trees, as two tables that grow by one entry
where a variable is met for the first time, one from left to right and one from
right to left.  Under the strict reading only the exchange of each variable for
itself is allowed.  Numbers are identified here by their words and not compared:
a not-a-number equals itself and differs from one with another sign or payload,
and the two zeros differ.
-/
import TreeRewriting.Node.Tree

namespace TreeRewriting

namespace Node

/-! ### Equality of numbers as they compare -/

/-- Equality of payloads, where numbers are compared and not identified: both zeros are
equal, and not-a-number differs from itself. -/
def leafBeq : Leaf → Leaf → Bool
  | .number x, .number y => x == y
  | .bool a, .bool b => a == b
  | .var i, .var j => i == j
  | .predicate l, .predicate m => l == m
  | _, _ => false

mutual

/-- Equality of trees, where numbers are compared and not identified. -/
def beq : Node → Node → Bool
  | .leaf l, .leaf m => leafBeq l m
  | .unary op x, .unary op' y => op == op' && beq x y
  | .binary op a b, .binary op' a' b' => op == op' && beq a a' && beq b b'
  | .nary op xs, .nary op' ys => op == op' && beqList xs ys
  | _, _ => false

/-- Equality of lists of trees, where numbers are compared and not identified. -/
def beqList : List Node → List Node → Bool
  | [], [] => true
  | x :: xs, y :: ys => beq x y && beqList xs ys
  | _, _ => false

end

instance : BEq Node := ⟨beq⟩

end Node

/-! ### Renamings -/

/-- Which variables have been exchanged for which so far, in both directions. -/
structure Renaming where
  forward : List (Nat × Nat)
  backward : List (Nat × Nat)
  deriving DecidableEq, Inhabited

namespace Renaming

/-- No variable has been met. -/
def empty : Renaming := ⟨[], []⟩

/-- Exchanges the left variable for the right one, if that agrees with what has been
exchanged before. -/
def matchVars (strict : Bool) (r : Renaming) (v w : Nat) : Option Renaming :=
  if strict then if v = w then some r else none
  else
    match r.forward.lookup v, r.backward.lookup w with
    | none, none => some ⟨(v, w) :: r.forward, (w, v) :: r.backward⟩
    | some w', some v' => if w' = w ∧ v' = v then some r else none
    | _, _ => none

mutual

/-- Renames the left term to the right one. -/
def matchTerms (strict : Bool) (r : Renaming) : Term → Term → Option Renaming
  | .var v, .var w => r.matchVars strict v w
  | .app f ss, .app g ts => if f = g then matchTermLists strict r ss ts else none
  | _, _ => none

/-- Renames the left terms to the right ones, in order. -/
def matchTermLists (strict : Bool) (r : Renaming) : List Term → List Term → Option Renaming
  | [], [] => some r
  | s :: ss, t :: ts =>
    match matchTerms strict r s t with
    | some r' => matchTermLists strict r' ss ts
    | none => none
  | _, _ => none

end

/-- Renames the left literal to the right one. -/
def matchLiterals (strict : Bool) (r : Renaming) (l m : Literal) : Option Renaming :=
  if l.negated = m.negated ∧ l.name = m.name then r.matchTermLists strict l.args m.args else none

/-- Renames the left payload to the right one. -/
def matchLeaves (strict : Bool) (r : Renaming) : Leaf → Leaf → Option Renaming
  | .number x, .number y => if x.bits = y.bits then some r else none
  | .bool a, .bool b => if a = b then some r else none
  | .var v, .var w => r.matchVars strict v w
  | .predicate l, .predicate m => r.matchLiterals strict l m
  | _, _ => none

mutual

/-- Renames the left tree to the right one. -/
def matchNodes (strict : Bool) (r : Renaming) : Node → Node → Option Renaming
  | .leaf l, .leaf m => r.matchLeaves strict l m
  | .unary op x, .unary op' y => if op = op' then matchNodes strict r x y else none
  | .binary op a b, .binary op' a' b' =>
    if op = op' then
      match matchNodes strict r a a' with
      | some r' => matchNodes strict r' b b'
      | none => none
    else none
  | .nary op xs, .nary op' ys => if op = op' then matchNodeLists strict r xs ys else none
  | _, _ => none

/-- Renames the left trees to the right ones, in order. -/
def matchNodeLists (strict : Bool) (r : Renaming) : List Node → List Node → Option Renaming
  | [], [] => some r
  | x :: xs, y :: ys =>
    match matchNodes strict r x y with
    | some r' => matchNodeLists strict r' xs ys
    | none => none
  | _, _ => none

end

end Renaming

/-- Whether two trees are equal, up to renaming unless the reading is strict. -/
def Node.structurallyEqual (strict : Bool) (a b : Node) : Bool :=
  (Renaming.empty.matchNodes strict a b).isSome

/-- Whether two literals are equal, up to renaming unless the reading is strict. -/
def Literal.structurallyEqual (strict : Bool) (a b : Literal) : Bool :=
  (Renaming.empty.matchLiterals strict a b).isSome

end TreeRewriting

/-
TreeRewriting/Table/Algebra.lean

Rules of algebra.

Constants are folded where the result is a finite number, neutral and absorbing
operands are dropped, and a sum of two equal operands becomes a product with
two.  Numbers in guards are compared, so that negative zero counts as zero.
-/
import TreeRewriting.Node.Equality
import TreeRewriting.Rule

namespace TreeRewriting.Algebra

open Rewriting

/-- The tags of the rules of algebra. -/
def tags : TagSet := .ofList [.algebraic, .safe, .deductive]

/-! ### Constant folding -/

/-- Carries out an operator on two numbers when the result is finite. -/
def fold (name : String) (k : Kind) (op : Number → Number → Number) : Rule where
  name
  tags
  pattern := .ofShape (.group "p" .fixed "a" ["b"])
  expects := [.is k, .is .number, .is .number]
  guard := some fun m =>
    match m.number? "a", m.number? "b" with
    | some a, some b => (op a b).isFinite
    | _, _ => false
  action := do
    let a ← read (·.number "a")
    let b ← read (·.number "b")
    replace "p" (.number (op a b))

/-- Carries out the negation of a number. -/
def foldNegate : Rule where
  name := "fold-negate"
  tags
  pattern := .ofShape (.group "n" .fixed "a" [])
  expects := [.is .negate, .is .number]
  guard := none
  action := do
    let a ← read (·.number "a")
    replace "n" (.number (-a))

/-- Takes the logarithm of a positive number. -/
def foldLn : Rule where
  name := "fold-ln"
  tags
  pattern := .ofShape (.group "l" .fixed "a" [])
  expects := [.is .ln, .is .number]
  guard := some fun m =>
    match m.number? "a" with
    | some a => decide (a > 0)
    | none => false
  action := do
    let a ← read (·.number "a")
    replace "l" (.number a.log)

/-! ### Identities -/

/-- Drops a neutral operand, on whichever side it stands. -/
def dropUnit (name : String) (k : Kind) (unit : Number) : Rule where
  name
  tags
  pattern := .ofShape (.group "p" .free "u" ["x"])
  expects := [.is k, .is .number, .any]
  guard := some fun m => m.isNumber "u" unit
  action := do
    let x ← take "x"
    replace "p" x

/-- A product with zero is zero. -/
def productByZero : Rule where
  name := "product-by-zero"
  tags
  pattern := .ofShape (.group "p" .free "z" ["x"])
  expects := [.is .product, .is .number, .any]
  guard := some fun m => m.isNumber "z" 0
  action := replace "p" (.number 0)

/-- The first power is the base. -/
def powerOne : Rule where
  name := "power-one"
  tags
  pattern := .ofShape (.group "p" .fixed "x" ["k"])
  expects := [.is .power, .any, .is .number]
  guard := some fun m => m.isNumber "k" 1
  action := do
    let x ← take "x"
    replace "p" x

/-- The power of exponent zero is one. -/
def powerZero : Rule where
  name := "power-zero"
  tags
  pattern := .ofShape (.group "p" .fixed "x" ["k"])
  expects := [.is .power, .any, .is .number]
  guard := some fun m => m.isNumber "k" 0
  action := replace "p" (.number 1)

/-- Two negations cancel. -/
def negateNegate : Rule where
  name := "negate-negate"
  tags
  pattern := .ofShape (.group "n" .fixed (.group "m" .fixed "x" []) [])
  expects := [.is .negate, .is .negate, .any]
  guard := none
  action := do
    let x ← take "x"
    replace "n" x

/-- The logarithm of one is zero. -/
def lnOne : Rule where
  name := "ln-one"
  tags
  pattern := .ofShape (.group "l" .fixed "a" [])
  expects := [.is .ln, .is .number]
  guard := some fun m => m.isNumber "a" 1
  action := replace "l" (.number 0)

/-- A sum of two equal operands that are not constants is twice the operand. -/
def plusSelf : Rule where
  name := "plus-self"
  tags
  pattern := .ofShape (.group "p" .fixed "a" ["b"])
  expects := [.is .plus, .any, .any]
  guard := some fun m =>
    match m.node? "a", m.node? "b" with
    | some a, some b => !a.kind.isConstant && Node.structurallyEqual true a b
    | _, _ => false
  action := do
    let a ← take "a"
    replace "p" (.product (.number 2) a)

/-! ### The table -/

/-- Sums of two numbers. -/
def foldPlus : Rule := fold "fold-plus" .plus (· + ·)

/-- Products of two numbers. -/
def foldProduct : Rule := fold "fold-product" .product (· * ·)

/-- Powers of two numbers. -/
def foldPower : Rule := fold "fold-power" .power Number.pow

/-- Zero is neutral in a sum. -/
def plusZero : Rule := dropUnit "plus-zero" .plus 0

/-- One is neutral in a product. -/
def productOne : Rule := dropUnit "product-one" .product 1

/-- The rules that carry out operators on constants. -/
def folding : List Rule := [foldPlus, foldProduct, foldPower, foldNegate, foldLn]

/-- The rules that hold whatever the operands are. -/
def identities : List Rule :=
  [plusZero, productOne, productByZero, powerOne, powerZero, negateNegate, lnOne, plusSelf]

/-- The rules of algebra. -/
def rules : List Rule := folding ++ identities

end TreeRewriting.Algebra

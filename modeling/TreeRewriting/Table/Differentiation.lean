/-
TreeRewriting/Table/Differentiation.lean

Rules that carry out derivatives.

Each rule pushes a derivative one level down, until it meets a number or a
variable.  There is none for a power whose exponent is not a number.
-/
import TreeRewriting.Rule

namespace TreeRewriting.Differentiation

open Rewriting

/-- The tags of the rules of differentiation. -/
def tags : TagSet := .ofList [.differentiation, .safe, .deductive]

/-- The derivative of an expression by a variable. -/
def leafPattern (e : String) : Pattern := .ofShape (.group "d" .fixed e ["x"])

/-- The derivative of an operator on one operand. -/
def unaryPattern (op : String) : Pattern := .ofShape (.group "d" .fixed (.group op .fixed "u" []) ["x"])

/-- The derivative of an operator on two operands. -/
def binaryPattern (v : String) : Pattern :=
  .ofShape (.group "d" .fixed (.group "p" .fixed "u" [v]) ["x"])

/-! ### Leaves -/

/-- The derivative of a number is zero. -/
def constant : Rule where
  name := "d-constant"
  tags
  pattern := leafPattern "c"
  expects := [.is .differentiate, .is .number, .is .var]
  guard := none
  action := replace "d" (.number 0)

/-- The derivative of a variable by itself is one. -/
def self : Rule where
  name := "d-self"
  tags
  pattern := leafPattern "y"
  expects := [.is .differentiate, .is .var, .is .var]
  guard := some fun m => m.var? "y" == m.var? "x"
  action := replace "d" (.number 1)

/-- The derivative of a variable by another is zero. -/
def otherVariable : Rule where
  name := "d-other-variable"
  tags
  pattern := leafPattern "y"
  expects := [.is .differentiate, .is .var, .is .var]
  guard := some fun m => m.var? "y" != m.var? "x"
  action := replace "d" (.number 0)

/-! ### Operators -/

/-- The derivative of a sum is the sum of the derivatives. -/
def plus : Rule where
  name := "d-plus"
  tags
  pattern := binaryPattern "v"
  expects := [.is .differentiate, .is .plus, .any, .any, .is .var]
  guard := none
  action := do
    let x ← copyOf "x"
    let u ← take "u"
    let v ← take "v"
    replace "d" (.plus (.differentiate u x) (.differentiate v x))

/-- The derivative of a product: each factor's derivative times the other factor. -/
def product : Rule where
  name := "d-product"
  tags
  pattern := binaryPattern "v"
  expects := [.is .differentiate, .is .product, .any, .any, .is .var]
  guard := none
  action := do
    let x ← copyOf "x"
    let u' ← copyOf "u"
    let v' ← copyOf "v"
    let u ← take "u"
    let v ← take "v"
    replace "d" (.plus (.product (.differentiate u x) v') (.product (.differentiate v x) u'))

/-- The derivative of an inverse is the inverse of the derivative. -/
def negate : Rule where
  name := "d-negate"
  tags
  pattern := unaryPattern "n"
  expects := [.is .differentiate, .is .negate, .any, .is .var]
  guard := none
  action := do
    let x ← take "x"
    let u ← take "u"
    replace "d" (.negate (.differentiate u x))

/-- The derivative of a power with a number for its exponent. -/
def power : Rule where
  name := "d-power"
  tags
  pattern := binaryPattern "k"
  expects := [.is .differentiate, .is .power, .any, .is .number, .is .var]
  guard := none
  action := do
    let k ← read (·.number "k")
    let x ← copyOf "x"
    let u' ← copyOf "u"
    let u ← take "u"
    replace "d"
      (.product (.product (.number k) (.power u' (.number (k - 1)))) (.differentiate u x))

/-- The derivative of a logarithm: the operand's derivative over the operand. -/
def ln : Rule where
  name := "d-ln"
  tags
  pattern := unaryPattern "l"
  expects := [.is .differentiate, .is .ln, .any, .is .var]
  guard := none
  action := do
    let x ← copyOf "x"
    let u' ← copyOf "u"
    let u ← take "u"
    replace "d" (.product (.differentiate u x) (.power u' (.number (-1))))

/-- The rules of differentiation. -/
def rules : List Rule := [constant, self, otherVariable, plus, product, negate, power, ln]

end TreeRewriting.Differentiation

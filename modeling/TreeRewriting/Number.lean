/-
TreeRewriting/Number.lean

Numbers: words of binary64 and the values they stand for.

Design.  A number is its word and not its value.  Whether two numbers are the
same is a question about words (`=`), and there a not-a-number keeps its sign and
its payload.  How two numbers compare, and what an operation makes of them, are
questions about values (`toFloat`).  There all not-a-numbers are one value, which
compares equal to nothing, and both zeros compare equal.

So an operation has to say which word it returns when that is a not-a-number.  An
operand that is one is passed on, made quiet, and of two the first; with no such
operand the result is the canonical word.  Negation turns the sign of any word.
The rules show little of this.  Only negation and the lowering of an exponent by
one lead from a not-a-number in a tree to another one: folded results have to be
finite, and logarithms are taken of positive numbers.
-/
namespace TreeRewriting

/-- A number of binary64, as its word. -/
@[ext] structure Number where
  bits : UInt64
  deriving DecidableEq, Inhabited

namespace Number

/-! ### Words and values -/

/-- The value of a number. -/
def toFloat (x : Number) : Float := .ofBits x.bits

/-- The number of a value. -/
def ofFloat (f : Float) : Number := ⟨f.toBits⟩

instance {n : Nat} [OfNat Float n] : OfNat Number n := ⟨ofFloat (OfNat.ofNat n)⟩

def isNaN (x : Number) : Bool := x.toFloat.isNaN

def isFinite (x : Number) : Bool := x.toFloat.isFinite

/-- The number with its quiet bit set, which says of a not-a-number that it raises nothing. -/
def quiet (x : Number) : Number := ⟨x.bits ||| 0x0008000000000000⟩

/-! ### Comparison -/

instance : BEq Number := ⟨fun x y => x.toFloat == y.toFloat⟩

instance : LT Number := ⟨fun x y => x.toFloat < y.toFloat⟩

instance (x y : Number) : Decidable (x < y) := inferInstanceAs (Decidable (x.toFloat < y.toFloat))

/-! ### Operations -/

/-- Carries out an operation on values, unless an operand is not-a-number and is passed on. -/
def lift (f : Float → Float → Float) (x y : Number) : Number :=
  if x.isNaN then x.quiet
  else if y.isNaN then y.quiet
  else ofFloat (f x.toFloat y.toFloat)

instance : Add Number := ⟨lift (· + ·)⟩

instance : Sub Number := ⟨lift (· - ·)⟩

instance : Mul Number := ⟨lift (· * ·)⟩

instance : Neg Number := ⟨fun x => ⟨x.bits ^^^ 0x8000000000000000⟩⟩

/-- The power of two numbers.  It may be a number where an operand is not-a-number. -/
def pow (x y : Number) : Number := ofFloat (x.toFloat.pow y.toFloat)

/-- The natural logarithm of a number. -/
def log (x : Number) : Number := ofFloat x.toFloat.log

end Number

end TreeRewriting

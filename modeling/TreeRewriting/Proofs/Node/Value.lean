/-
TreeRewriting/Proofs/Node/Value.lean

Values of trees in an arithmetic.

Design.  A tree has a value when its operator is one of the arithmetic and all
its operands have a value; this is said once for each number of operands
(`eval_unary_eq_some`, `eval_binary_eq_some`), with the operation that the
arithmetic has for the operator.  It follows that values are kept in contexts.

The laws are stated for any arithmetic and any operator on two operands: a
constant that is neutral may be dropped, one that absorbs may take the place of
the whole, whichever side it stands on.
-/
import Mathlib
import TreeRewriting.Node.Evaluation
import TreeRewriting.Proofs.Node.Context

namespace TreeRewriting

universe u

variable {R : Type u}

/-! ### Operations -/

namespace Arithmetic

/-- The operation for an operator on one operand. -/
def unary? (A : Arithmetic R) : UnaryOp → Option (R → R)
  | .negate => some A.neg
  | .ln => some A.ln
  | .not => none

/-- The operation for an operator on two operands. -/
def binary? (A : Arithmetic R) : BinaryOp → Option (R → R → R)
  | .plus => some A.add
  | .product => some A.mul
  | .power => some A.pow
  | .differentiate | .and | .or => none

/-- Exact arithmetic in a ring, with any meaning of constants, logarithms and powers. -/
def ofRing [CommRing R] (const : Number → R) (ln : R → R) (pow : R → R → R) : Arithmetic R where
  const
  neg x := -x
  ln
  add x y := x + y
  mul x y := x * y
  pow

end Arithmetic

namespace Node

variable {A : Arithmetic R} {env : Nat → Option R}

theorem eval_unary_eq_some {op : UnaryOp} {x : Node} {w : R} :
    eval A env (.unary op x) = some w ↔
      ∃ g u, A.unary? op = some g ∧ eval A env x = some u ∧ g u = w := by
  cases op <;> simp [eval, Arithmetic.unary?]

theorem eval_binary_eq_some {op : BinaryOp} {a b : Node} {w : R} :
    eval A env (.binary op a b) = some w ↔
      ∃ g u v, A.binary? op = some g ∧ eval A env a = some u ∧ eval A env b = some v ∧
        g u v = w := by
  cases op <;> simp [eval, Arithmetic.binary?, Option.bind_eq_some_iff]

theorem eval_operator_eq_some {op : BinaryOp} {g : R → R → R} (hop : A.binary? op = some g)
    {a b : Node} {w : R} :
    eval A env (.binary op a b) = some w ↔
      ∃ u v, eval A env a = some u ∧ eval A env b = some v ∧ g u v = w := by
  simp [eval_binary_eq_some, hop]

/-- Values are kept in contexts. -/
theorem contextClosed_eval : ContextClosed (Refines (eval A env)) := by
  apply ContextClosed.of_operators
  case unary =>
    intro op c d h w hw
    obtain ⟨g, u, hg, hu, rfl⟩ := eval_unary_eq_some.mp hw
    exact eval_unary_eq_some.mpr ⟨g, u, hg, h u hu, rfl⟩
  case left =>
    intro op c d b h w hw
    obtain ⟨g, u, v, hg, hu, hv, rfl⟩ := eval_binary_eq_some.mp hw
    exact eval_binary_eq_some.mpr ⟨g, u, v, hg, h u hu, hv, rfl⟩
  case right =>
    intro op a c d h w hw
    obtain ⟨g, u, v, hg, hu, hv, rfl⟩ := eval_binary_eq_some.mp hw
    exact eval_binary_eq_some.mpr ⟨g, u, v, hg, hu, h v hv, rfl⟩
  case nary =>
    intro op xs i c d hc h
    exact .of_none rfl

/-! ### Laws -/

section

variable {op : BinaryOp} {g : R → R → R} (hop : A.binary? op = some g) {x z : Number} (u : Node)

include hop

theorem refines_neutral_left (h : ∀ r, g (A.const x) r = r) :
    Refines (eval A env) (.binary op (.number x) u) u := by
  intro w hw
  obtain ⟨a, b, ha, hb, rfl⟩ := (eval_operator_eq_some hop).mp hw
  obtain rfl : A.const x = a := Option.some.inj ha
  rw [h, hb]

theorem refines_neutral_right (h : ∀ r, g r (A.const x) = r) :
    Refines (eval A env) (.binary op u (.number x)) u := by
  intro w hw
  obtain ⟨a, b, ha, hb, rfl⟩ := (eval_operator_eq_some hop).mp hw
  obtain rfl : A.const x = b := Option.some.inj hb
  rw [h, ha]

theorem refines_absorbing_left (h : ∀ r, g (A.const x) r = A.const z) :
    Refines (eval A env) (.binary op (.number x) u) (.number z) := by
  intro w hw
  obtain ⟨a, b, ha, -, rfl⟩ := (eval_operator_eq_some hop).mp hw
  obtain rfl : A.const x = a := Option.some.inj ha
  rw [h, eval]

theorem refines_absorbing_right (h : ∀ r, g r (A.const x) = A.const z) :
    Refines (eval A env) (.binary op u (.number x)) (.number z) := by
  intro w hw
  obtain ⟨a, b, -, hb, rfl⟩ := (eval_operator_eq_some hop).mp hw
  obtain rfl : A.const x = b := Option.some.inj hb
  rw [h, eval]

end

theorem refines_negate_negate (h : ∀ r, A.neg (A.neg r) = r) (u : Node) :
    Refines (eval A env) (.negate (.negate u)) u := by
  intro w hw
  obtain ⟨g, a, hg, ha, rfl⟩ := eval_unary_eq_some.mp hw
  obtain ⟨g', b, hg', hb, rfl⟩ := eval_unary_eq_some.mp ha
  obtain rfl : A.neg = g := Option.some.inj hg
  obtain rfl : A.neg = g' := Option.some.inj hg'
  rw [h, hb]

/-- A sum of two equal operands is a product with the constant that doubles. -/
theorem refines_double {x : Number} (h : ∀ r, A.add r r = A.mul (A.const x) r) (u : Node) :
    Refines (eval A env) (.plus u u) (.product (.number x) u) := by
  intro w hw
  have hplus : A.binary? .plus = some A.add := rfl
  have hproduct : A.binary? .product = some A.mul := rfl
  obtain ⟨a, b, ha, hb, rfl⟩ := (eval_operator_eq_some hplus).mp hw
  obtain rfl : a = b := Option.some.inj (ha.symm.trans hb)
  exact (eval_operator_eq_some hproduct).mpr ⟨A.const x, a, rfl, ha, (h a).symm⟩

end Node

end TreeRewriting

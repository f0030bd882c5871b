/-
TreeRewriting/Proofs/Node/Derivative.lean

Expressions whose derivatives can be carried out.

Design.  These are the arithmetic expressions in which exponents are numbers and
derivatives are taken by variables; derivatives may be nested.  That a tree has
no derivative left is said of all its locations (`Everywhere`), and passes to
its operands.

Exponents and variables are looked at by rules above them.  A rewrite therefore
keeps to these expressions in every context when it does so by itself and
leaves a node without operands as it is (`StaysDifferentiable`).
-/
import TreeRewriting.Proofs.Node.Context
import TreeRewriting.Proofs.Node.Everywhere

namespace TreeRewriting.Node

/-! ### Differentiable expressions -/

/-- Arithmetic expressions in which exponents are numbers and derivatives are taken by
variables. -/
inductive Differentiable : Node → Prop
  | number (x : Number) : Differentiable (.number x)
  | var (i : Nat) : Differentiable (.var i)
  | negate {u : Node} (hu : Differentiable u) : Differentiable (.negate u)
  | ln {u : Node} (hu : Differentiable u) : Differentiable (.ln u)
  | plus {u v : Node} (hu : Differentiable u) (hv : Differentiable v) : Differentiable (.plus u v)
  | product {u v : Node} (hu : Differentiable u) (hv : Differentiable v) :
      Differentiable (.product u v)
  | power {u : Node} (k : Number) (hu : Differentiable u) : Differentiable (.power u (.number k))
  | differentiate {u : Node} (i : Nat) (hu : Differentiable u) :
      Differentiable (.differentiate u (.var i))

namespace Differentiable

variable {n : Node}

theorem of_unary {op : UnaryOp} {u : Node} (h : Differentiable (.unary op u)) :
    Differentiable u := by
  cases h with
  | negate hu => exact hu
  | ln hu => exact hu

theorem of_left {op : BinaryOp} {u v : Node} (h : Differentiable (.binary op u v)) :
    Differentiable u := by
  cases h with
  | plus hu _ => exact hu
  | product hu _ => exact hu
  | power _ hu => exact hu
  | differentiate _ hu => exact hu

theorem of_right {op : BinaryOp} {u v : Node} (h : Differentiable (.binary op u v)) :
    Differentiable v := by
  cases h with
  | plus _ hv => exact hv
  | product _ hv => exact hv
  | power k _ => exact .number k
  | differentiate i _ => exact .var i

theorem of_child {c : Node} (h : Differentiable n) (hc : c ∈ n.children) : Differentiable c := by
  cases n with
  | leaf l => cases hc
  | unary op x =>
    obtain rfl := List.mem_singleton.mp hc
    exact h.of_unary
  | binary op a b =>
    simp only [children, List.mem_cons, List.not_mem_nil, or_false] at hc
    rcases hc with rfl | rfl
    · exact h.of_left
    · exact h.of_right
  | nary op xs => cases h

end Differentiable

/-- No derivative is left in the tree. -/
def DerivativeFree (n : Node) : Prop := Everywhere (fun m => m.kind ≠ .differentiate) n

/-! ### Rewriting them -/

/-- The second tree is differentiable if the first is, and is the same if the first has no
operands. -/
structure StaysDifferentiable (n m : Node) : Prop where
  differentiable : Differentiable n → Differentiable m
  leaf : n.kind.isLeaf = true → m = n

theorem StaysDifferentiable.refl (n : Node) : StaysDifferentiable n n := ⟨id, fun _ => rfl⟩

theorem StaysDifferentiable.trans {n m o : Node} (hnm : StaysDifferentiable n m)
    (hmo : StaysDifferentiable m o) : StaysDifferentiable n o := by
  refine ⟨fun h => hmo.differentiable (hnm.differentiable h), ?_⟩
  intro hleaf
  obtain rfl : m = n := hnm.leaf hleaf
  exact hmo.leaf hleaf

theorem contextClosed_staysDifferentiable : ContextClosed StaysDifferentiable := by
  apply ContextClosed.of_operators
  case unary =>
    intro op c d h
    refine ⟨?_, by cases op <;> nofun⟩
    intro hn
    cases hn with
    | negate hc => exact .negate (h.differentiable hc)
    | ln hc => exact .ln (h.differentiable hc)
  case left =>
    intro op c d b h
    refine ⟨?_, by cases op <;> nofun⟩
    intro hn
    cases hn with
    | plus hc hb => exact .plus (h.differentiable hc) hb
    | product hc hb => exact .product (h.differentiable hc) hb
    | power k hc => exact .power k (h.differentiable hc)
    | differentiate i hc => exact .differentiate i (h.differentiable hc)
  case right =>
    intro op a c d h
    refine ⟨?_, by cases op <;> nofun⟩
    intro hn
    cases hn with
    | plus ha hc => exact .plus ha (h.differentiable hc)
    | product ha hc => exact .product ha (h.differentiable hc)
    | power k ha =>
      obtain rfl : d = .number k := h.leaf rfl
      exact .power k ha
    | differentiate i ha =>
      obtain rfl : d = .var i := h.leaf rfl
      exact .differentiate i ha
  case nary =>
    intro op xs i c d hc h
    exact ⟨nofun, by cases op <;> nofun⟩

end TreeRewriting.Node

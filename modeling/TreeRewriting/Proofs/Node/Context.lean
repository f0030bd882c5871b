/-
TreeRewriting/Proofs/Node/Context.lean

Relations between trees that pass from an operand to the whole tree.

Design.  A rewrite changes one operand of an operand … of a tree.  A relation is
closed under contexts when it passes from an operand before and after a change
to the operator above; it then passes from a subtree at any location to the
whole tree (`ContextClosed.set`).

The relation used most compares values (`Refines`).  It is one-sided: a tree
that has a value keeps it, and one that has none may gain one.  Rewrites also
happen in operands that evaluation never looks at and that make no sense where
they stand, and there nothing more can be said.
-/
import TreeRewriting.Node.Location

namespace TreeRewriting.Node

universe u

/-! ### Contexts -/

/-- The relation passes from an operand to the operator above it. -/
def ContextClosed (R : Node → Node → Prop) : Prop :=
  ∀ ⦃n c d : Node⦄ ⦃i : Nat⦄, n.children[i]? = some c → R c d →
    R n (n.withChildren (n.children.set i d))

namespace ContextClosed

variable {R : Node → Node → Prop}

/-- It is enough to look at each number of operands. -/
theorem of_operators (unary : ∀ op c d, R c d → R (.unary op c) (.unary op d))
    (left : ∀ op c d b, R c d → R (.binary op c b) (.binary op d b))
    (right : ∀ op a c d, R c d → R (.binary op a c) (.binary op a d))
    (nary : ∀ op xs i c d, xs[i]? = some c → R c d → R (.nary op xs) (.nary op (xs.set i d))) :
    ContextClosed R := by
  intro n c d i hc hcd
  cases n with
  | leaf l => simp [children] at hc
  | unary op x =>
    cases i with
    | zero =>
      obtain rfl : x = c := by simpa [children] using hc
      exact unary op x d hcd
    | succ i => simp [children] at hc
  | binary op a b =>
    rcases at?_binary_eq_some.mp ((at?_singleton _ i).trans hc) with ⟨rfl, rfl⟩ | ⟨rfl, rfl⟩
    · exact left op c d b hcd
    · exact right op a c d hcd
  | nary op xs => exact nary op xs i c d hc hcd

/-- What relates a subtree to another relates the tree to the one with that subtree in its
place. -/
theorem set (h : ContextClosed R) {n c d : Node} {p : Location} (hc : n.at? p = some c)
    (hcd : R c d) : R n (n.set p d) := by
  induction p generalizing n with
  | nil =>
    obtain rfl := Option.some.inj hc
    exact hcd
  | cons i p ih =>
    rw [at?_cons] at hc
    obtain ⟨e, he, hc⟩ := Option.bind_eq_some_iff.mp hc
    rw [set_cons he]
    exact h he (ih hc)

end ContextClosed

/-! ### Values that are kept -/

section

variable {α : Type u} {f : Node → Option α} {n m : Node}

/-- If the first tree has a value, the second has it too. -/
def Refines (f : Node → Option α) (n m : Node) : Prop := ∀ v, f n = some v → f m = some v

theorem Refines.of_eq (h : f n = f m) : Refines f n m := by
  intro v hv
  exact h.symm.trans hv

theorem Refines.of_none (h : f n = none) : Refines f n m := by
  intro v hv
  rw [h] at hv
  cases hv

end

end TreeRewriting.Node

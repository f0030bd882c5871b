/-
TreeRewriting/Proofs/Table/Potential.lean

A measure of trees that every rule of the tables lowers.

Design.  Rules pull in opposite directions: a derivative of a product copies
both operands, a power under a derivative grows, a sum of equal operands is
traded for a product of the same size.  The potential of a derivative is
therefore quadratic in what is derived, so that a derivative pushed down below
an operator pays for the copies; a sum weighs more than a product; and a leaf
weighs two, so that squaring never weighs less than doubling.  A potential
rises with the potential of every operand (`potential_set_lt`), so what lowers
it at a location lowers it for the whole tree.

Neither the values of numbers nor the terms of literals matter
(`potential_mapNumbers`, `potential_applyNode`).
-/
import TreeRewriting.Proofs.Node.Weight

namespace TreeRewriting

/-- What an operator on two operands makes of their potentials. -/
def BinaryOp.potential : BinaryOp → Nat → Nat → Nat
  | .plus, u, v => u + v + 1
  | .differentiate, u, v => u * u + v
  | _, u, v => u + v

namespace Node

mutual

/-- The potential of a tree. -/
def potential : Node → Nat
  | .leaf _ => 2
  | .unary _ x => potential x + 1
  | .binary op a b => op.potential (potential a) (potential b)
  | .nary _ xs => potentialList xs + 2

/-- The potentials of a list of trees, added up. -/
def potentialList : List Node → Nat
  | [] => 0
  | x :: xs => potential x + potentialList xs

end

end Node

/-! ### Operators -/

namespace BinaryOp

variable {u u' v v' : Nat}

theorem potential_lt_left (op : BinaryOp) (h : u < u') (v : Nat) :
    op.potential u v < op.potential u' v := by
  have hsq : u * u < u' * u' := Nat.mul_self_lt_mul_self h
  cases op <;> simp only [potential] <;> omega

theorem potential_lt_right (op : BinaryOp) (u : Nat) (h : v < v') :
    op.potential u v < op.potential u v' := by
  cases op <;> simp only [potential] <;> omega

theorem add_le_potential (op : BinaryOp) (u v : Nat) : u + v ≤ op.potential u v := by
  have hsq : u ≤ u * u := Nat.le_mul_self u
  cases op <;> simp only [potential] <;> omega

end BinaryOp

namespace Node

/-! ### Trees -/

/-- No tree weighs less than a leaf. -/
theorem two_le_potential (n : Node) : 2 ≤ n.potential := by
  induction n using induct with
  | node n ih =>
    cases n with
    | leaf l => exact Nat.le_refl 2
    | unary op x =>
      have hx := ih x (by simp [children])
      exact Nat.le_succ_of_le hx
    | binary op a b =>
      have ha := ih a (by simp [children])
      have hab := op.add_le_potential a.potential b.potential
      rw [potential]
      omega
    | nary op xs => exact Nat.le_add_left 2 (potentialList xs)

theorem potentialList_eq_sum (xs : List Node) : potentialList xs = (xs.map potential).sum := by
  induction xs with
  | nil => rfl
  | cons x xs ih => rw [potentialList, ih, List.map_cons, List.sum_cons]

theorem potentialList_set {xs : List Node} {i : Nat} {c : Node} (h : xs[i]? = some c) (d : Node) :
    potentialList (xs.set i d) + c.potential = potentialList xs + d.potential := by
  rw [potentialList_eq_sum, potentialList_eq_sum]
  exact sum_map_set h d

theorem potentialList_eraseIdx {xs : List Node} {i : Nat} {c : Node} (h : xs[i]? = some c) :
    potentialList (xs.eraseIdx i) + c.potential = potentialList xs := by
  rw [potentialList_eq_sum, potentialList_eq_sum]
  exact sum_map_eraseIdx h

/-- A lighter operand makes a lighter tree. -/
theorem contextClosed_potential_lt : ContextClosed fun n m => m.potential < n.potential := by
  apply ContextClosed.of_operators
  case unary =>
    intro op c d h
    exact Nat.succ_lt_succ h
  case left =>
    intro op c d b h
    exact op.potential_lt_left h b.potential
  case right =>
    intro op a c d h
    exact op.potential_lt_right a.potential h
  case nary =>
    intro op xs i c d hc h
    have := potentialList_set hc d
    show potentialList (xs.set i d) + 2 < potentialList xs + 2
    omega

/-- What makes a subtree lighter makes the whole tree lighter. -/
theorem potential_set_lt {n c d : Node} {p : Location} (hc : n.at? p = some c)
    (h : d.potential < c.potential) : (n.set p d).potential < n.potential :=
  contextClosed_potential_lt.set hc h

/-! ### What does not matter -/

mutual

/-- A substitution does not change the potential of a tree. -/
theorem potential_applyNode (s : Substitution) : (n : Node) →
    (s.applyNode n).potential = n.potential
  | .leaf l => by cases l <;> rfl
  | .unary op x => by
    rw [Substitution.applyNode, potential, potential_applyNode s x, potential]
  | .binary op a b => by
    rw [Substitution.applyNode, potential, potential_applyNode s a, potential_applyNode s b,
      potential]
  | .nary op xs => by
    rw [Substitution.applyNode, potential, potentialList_applyNodes s xs, potential]

theorem potentialList_applyNodes (s : Substitution) : (xs : List Node) →
    potentialList (s.applyNodes xs) = potentialList xs
  | [] => rfl
  | x :: xs => by
    rw [Substitution.applyNodes, potentialList, potential_applyNode s x,
      potentialList_applyNodes s xs, potentialList]

end

mutual

/-- The tree with a function applied to each of its numbers. -/
def mapNumbers (f : Number → Number) : Node → Node
  | .leaf (.number x) => .leaf (.number (f x))
  | .leaf l => .leaf l
  | .unary op x => .unary op (mapNumbers f x)
  | .binary op a b => .binary op (mapNumbers f a) (mapNumbers f b)
  | .nary op xs => .nary op (mapNumbersList f xs)

/-- A list of trees with a function applied to each of their numbers. -/
def mapNumbersList (f : Number → Number) : List Node → List Node
  | [] => []
  | x :: xs => mapNumbers f x :: mapNumbersList f xs

end

mutual

/-- The values of its numbers do not matter for the potential of a tree. -/
theorem potential_mapNumbers (f : Number → Number) : (n : Node) →
    (n.mapNumbers f).potential = n.potential
  | .leaf l => by cases l <;> rfl
  | .unary op x => by rw [mapNumbers, potential, potential_mapNumbers f x, potential]
  | .binary op a b => by
    rw [mapNumbers, potential, potential_mapNumbers f a, potential_mapNumbers f b, potential]
  | .nary op xs => by
    rw [mapNumbers, potential, potentialList_mapNumbersList f xs, potential]

theorem potentialList_mapNumbersList (f : Number → Number) : (xs : List Node) →
    potentialList (mapNumbersList f xs) = potentialList xs
  | [] => rfl
  | x :: xs => by
    rw [mapNumbersList, potentialList, potential_mapNumbers f x, potentialList_mapNumbersList f xs,
      potentialList]

end

/-- Two trees that differ in the values of their numbers at most. -/
def SameButNumbers (m n : Node) : Prop := m.mapNumbers (fun _ => 0) = n.mapNumbers fun _ => 0

theorem SameButNumbers.potential_eq {m n : Node} (h : m.SameButNumbers n) :
    m.potential = n.potential := by
  rw [← potential_mapNumbers (fun _ => 0) m, h, potential_mapNumbers]

end Node

end TreeRewriting

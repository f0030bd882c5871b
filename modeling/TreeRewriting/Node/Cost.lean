/-
TreeRewriting/Node/Cost.lean

The cost of a tree, given what each node costs by itself.

The cost of a tree is the sum over its nodes.  Counting each node once gives
its size; the weights say how expensive an operator is to evaluate or to reason
about, from free constants up to derivatives that have not been carried out.
-/
import TreeRewriting.Node.Size

namespace TreeRewriting.Node

mutual

/-- The costs of all nodes of a tree, added up. -/
def cost (weight : Node → Nat) : Node → Nat
  | .leaf l => weight (.leaf l)
  | .unary op x => weight (.unary op x) + cost weight x
  | .binary op a b => weight (.binary op a b) + cost weight a + cost weight b
  | .nary op xs => weight (.nary op xs) + costList weight xs

/-- The costs of a list of trees, added up. -/
def costList (weight : Node → Nat) : List Node → Nat
  | [] => 0
  | x :: xs => cost weight x + costList weight xs

end

/-- Every node costs one. -/
def unitWeight (_ : Node) : Nat := 1

/-- The cost of a node by its operator; clauses and clause sets cost as many as they have
children. -/
def weight (n : Node) : Nat :=
  match n.kind with
  | .number | .bool => 0
  | .var | .negate | .not => 1
  | .plus | .product | .and | .or => 2
  | .power | .predicate => 3
  | .ln => 5
  | .differentiate => 10
  | .clause | .clauseSet => n.arity

theorem cost_eq (w : Node → Nat) (n : Node) : n.cost w = w n + costList w n.children := by
  cases n <;> simp [cost, costList, children, Nat.add_assoc]

mutual

/-- When every node costs one, the cost is the size. -/
theorem cost_unitWeight : (n : Node) → n.cost unitWeight = n.size
  | .leaf _ => rfl
  | .unary _ x => by rw [cost, size, cost_unitWeight x, unitWeight, Nat.add_comm]
  | .binary _ a b => by
    rw [cost, size, cost_unitWeight a, cost_unitWeight b, unitWeight]
    omega
  | .nary _ xs => by rw [cost, size, costList_unitWeight xs, unitWeight, Nat.add_comm]

theorem costList_unitWeight : (xs : List Node) → costList unitWeight xs = sizeList xs
  | [] => rfl
  | x :: xs => by rw [costList, sizeList, cost_unitWeight x, costList_unitWeight xs]

end

end TreeRewriting.Node

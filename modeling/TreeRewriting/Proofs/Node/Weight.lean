/-
TreeRewriting/Proofs/Node/Weight.lean

Costs of trees that differ in one place.

Design.  A cost is a sum over the nodes, so a tree that loses an operand loses
what the operand costs, and one with an operand exchanged changes by the
difference (`sum_map_eraseIdx`, `sum_map_set`).  What an operator costs by itself
may depend on its kind and on how many operands it has; then what a subtree
saves the whole tree saves (`contextClosed_cost`).

Which rewrites save is a matter of weights.  Rules that simplify drop nodes, put
a constant for an operator, or trade a sum for a product; where none of these
costs more than before, and each saves at least an amount, the weights are
`Thrifty` with that amount.  Size and cost are thrifty with nothing to spare,
since a product is no smaller than a sum; size and the number of sums together
are thrifty with one.
-/
import Mathlib
import TreeRewriting.Node.Cost
import TreeRewriting.Node.Substitution
import TreeRewriting.Proofs.Node.Context

namespace TreeRewriting.Node

variable {w : Node → Nat} {k : Nat} {n m : Node}

/-! ### Sums over operands -/

section

variable {α : Type} {f : α → Nat} {xs : List α} {i : Nat} {c : α}

theorem sum_map_eraseIdx (h : xs[i]? = some c) :
    ((xs.eraseIdx i).map f).sum + f c = (xs.map f).sum := by
  obtain ⟨hi, rfl⟩ := List.getElem?_eq_some_iff.mp h
  have hi' : i < (xs.map f).length := by rwa [List.length_map]
  rw [← List.eraseIdx_map, ← List.CommMonoid.add_sum_eraseIdx hi', List.getElem_map, Nat.add_comm]

theorem sum_map_set (h : xs[i]? = some c) (d : α) :
    ((xs.set i d).map f).sum + f c = (xs.map f).sum + f d := by
  have hi := (List.getElem?_eq_some_iff.mp h).1
  have hd : (xs.set i d)[i]? = some d := List.getElem?_set_self hi
  -- without the operand the two lists are the same
  rw [← sum_map_eraseIdx h, ← sum_map_eraseIdx hd, List.eraseIdx_set_eq]
  omega

end

/-! ### Costs of lists and of trees -/

theorem costList_eq_sum (w : Node → Nat) (xs : List Node) :
    costList w xs = (xs.map (cost w)).sum := by
  induction xs with
  | nil => rfl
  | cons x xs ih => rw [costList, ih, List.map_cons, List.sum_cons]

theorem costList_eraseIdx {xs : List Node} {i : Nat} {c : Node} (h : xs[i]? = some c) :
    costList w (xs.eraseIdx i) + c.cost w = costList w xs := by
  simp only [costList_eq_sum]
  exact sum_map_eraseIdx h

theorem costList_set {xs : List Node} {i : Nat} {c : Node} (h : xs[i]? = some c) (d : Node) :
    costList w (xs.set i d) + c.cost w = costList w xs + d.cost w := by
  simp only [costList_eq_sum]
  exact sum_map_set h d

theorem weight_le_cost (w : Node → Nat) (n : Node) : w n ≤ n.cost w := by
  rw [cost_eq]
  exact Nat.le_add_right _ _

/-- The cost under two weights together is the sum of both costs. -/
theorem cost_add (w w' : Node → Nat) (n : Node) :
    n.cost (fun m => w m + w' m) = n.cost w + n.cost w' := by
  induction n using induct with
  | node n ih =>
    have hchildren : costList (fun m => w m + w' m) n.children
        = costList w n.children + costList w' n.children := by
      simp only [costList_eq_sum, ← List.sum_map_add]
      exact congrArg List.sum (List.map_congr_left ih)
    simp only [cost_eq _ n, hchildren]
    omega

/-! ### The number of nodes of a kind -/

/-- A node of the kind costs one, any other nothing. -/
def kindWeight (k : Kind) (n : Node) : Nat := if n.kind = k then 1 else 0

/-- The number of nodes of a kind in a tree. -/
def countKind (k : Kind) (n : Node) : Nat := n.cost (kindWeight k)

/-! ### Thrifty weights -/

/-- Weights under which simplifying costs nothing, and saves at least `k` wherever a node is
dropped or a sum gives way to a product. -/
structure Thrifty (k : Nat) (w : Node → Nat) : Prop where
  /-- fewer operands under the same operator do not cost more -/
  mono : ∀ {n m : Node}, n.kind = m.kind → n.arity ≤ m.arity → w n ≤ w m
  /-- nothing costs less than a constant -/
  constant_le : ∀ {n : Node}, n.kind.isConstant = true → ∀ m, w n ≤ w m
  le_weight : ∀ n, k ≤ w n
  product_add_le : ∀ a b c d, w (.binary .product a b) + k ≤ w (.binary .plus c d)

theorem thrifty_unitWeight : Thrifty 0 unitWeight where
  mono _ _ := Nat.le_refl 1
  constant_le _ _ := Nat.le_refl 1
  le_weight _ := Nat.zero_le 1
  product_add_le _ _ _ _ := Nat.le_refl 1

theorem thrifty_weight : Thrifty 0 weight where
  mono := by
    intro n m hkind harity
    rw [weight, weight, hkind]
    -- all but clauses and clause sets cost the same whatever their operands
    cases m.kind
    case clause => exact harity
    case clauseSet => exact harity
    all_goals exact Nat.le_refl _
  constant_le := by
    intro n hn m
    have hzero : weight n = 0 := by
      rw [weight]
      revert hn
      cases n.kind <;> simp [Kind.isConstant]
    rw [hzero]
    exact Nat.zero_le _
  le_weight _ := Nat.zero_le _
  product_add_le _ _ _ _ := Nat.le_refl 2

/-- Counting every node once and every sum twice, each simplification saves one. -/
theorem thrifty_unitWeight_add_plus : Thrifty 1 fun n => unitWeight n + kindWeight .plus n where
  mono := by
    intro n m hkind _
    simp only [unitWeight, kindWeight, hkind]
    exact Nat.le_refl _
  constant_le := by
    intro n hn m
    have hzero : kindWeight .plus n = 0 := by
      apply if_neg
      intro hplus
      rw [hplus] at hn
      cases hn
    rw [hzero]
    exact Nat.le_add_right 1 _
  le_weight n := Nat.le_add_right 1 _
  product_add_le _ _ _ _ := Nat.le_refl 2

namespace Thrifty

/-- What an operand saves the operator above it saves. -/
theorem contextClosed_cost (hw : Thrifty k w) :
    ContextClosed fun n m => m.cost w + k ≤ n.cost w := by
  intro n c d i hc hcd
  have hlength : (n.children.set i d).length = n.arity := List.length_set
  have harity : (n.withChildren (n.children.set i d)).arity = n.arity := by
    rw [arity, children_withChildren hlength, hlength]
  have hweight : w (n.withChildren (n.children.set i d)) ≤ w n :=
    hw.mono (kind_withChildren n _) (Nat.le_of_eq harity)
  have hchildren := costList_set (w := w) hc d
  show cost w (n.withChildren (n.children.set i d)) + k ≤ cost w n
  rw [cost_eq w n, cost_eq w (n.withChildren _), children_withChildren hlength]
  omega

/-- A subtree that gives way to a cheaper one saves its difference. -/
theorem cost_set_le (hw : Thrifty k w) {c d : Node} {p : Location} (hc : n.at? p = some c)
    (h : d.cost w + k ≤ c.cost w) : (n.set p d).cost w + k ≤ n.cost w :=
  hw.contextClosed_cost.set hc h

/-- A constant costs no more than any tree. -/
theorem cost_constant_le (hw : Thrifty k w) (hn : n.kind.isConstant = true) (m : Node) :
    n.cost w ≤ m.cost w := by
  obtain ⟨l, rfl⟩ : ∃ l, n = leaf l := by
    apply eq_leaf_of_isLeaf
    revert hn
    cases n.kind <;> simp [Kind.isConstant, Kind.isLeaf]
  have hconstant : w (leaf l) ≤ w m := hw.constant_le hn m
  exact Nat.le_trans hconstant (weight_le_cost w m)

theorem le_cost (hw : Thrifty k w) (n : Node) : k ≤ n.cost w :=
  Nat.le_trans (hw.le_weight n) (weight_le_cost w n)

/-- Operators of one kind with equally many operands cost the same. -/
theorem weight_eq (hw : Thrifty k w) (hkind : n.kind = m.kind) (harity : n.arity = m.arity) :
    w n = w m := by
  apply Nat.le_antisymm
  · exact hw.mono hkind (Nat.le_of_eq harity)
  · exact hw.mono hkind.symm (Nat.le_of_eq harity.symm)

/-- Instances of literals cost what the literals cost. -/
theorem cost_applyNode (hw : Thrifty k w) (s : Substitution) (n : Node) :
    (s.applyNode n).cost w = n.cost w := by
  induction n using induct with
  | node n ih =>
    rw [cost_eq, cost_eq w n, s.children_applyNode, costList_eq_sum, costList_eq_sum, List.map_map]
    congr 1
    · exact hw.weight_eq (s.kind_applyNode n) (s.arity_applyNode n)
    · exact congrArg List.sum (List.map_congr_left ih)

end Thrifty

end TreeRewriting.Node

/-
TreeRewriting/Node/Size.lean

Size and depth of trees, and induction along children.

The size counts nodes.  A child is smaller than its parent
(`Node.size_child_lt`), which is what every recursion through `children` and
the induction principle `Node.induct` rest on.
-/
import TreeRewriting.Node.Tree

namespace TreeRewriting.Node

/-! ### Size and depth -/

mutual

/-- The number of nodes of a tree. -/
def size : Node → Nat
  | .leaf _ => 1
  | .unary _ x => size x + 1
  | .binary _ a b => size a + size b + 1
  | .nary _ xs => sizeList xs + 1

/-- The number of nodes of a list of trees. -/
def sizeList : List Node → Nat
  | [] => 0
  | x :: xs => size x + sizeList xs

end

mutual

/-- The number of nodes on a longest way down. -/
def depth : Node → Nat
  | .leaf _ => 1
  | .unary _ x => depth x + 1
  | .binary _ a b => max (depth a) (depth b) + 1
  | .nary _ xs => depthList xs + 1

/-- The greatest depth among a list of trees, zero when there is none. -/
def depthList : List Node → Nat
  | [] => 0
  | x :: xs => max (depth x) (depthList xs)

end

theorem size_eq (n : Node) : n.size = sizeList n.children + 1 := by
  cases n <;> simp [size, children, sizeList]

theorem size_pos (n : Node) : 0 < n.size := by
  rw [size_eq]
  omega

theorem sizeList_lt_cons (x : Node) (xs : List Node) : sizeList xs < sizeList (x :: xs) := by
  have := size_pos x
  simp only [sizeList]
  omega

@[simp] theorem sizeList_append (xs ys : List Node) :
    sizeList (xs ++ ys) = sizeList xs + sizeList ys := by
  induction xs with
  | nil => simp [sizeList]
  | cons x xs ih => simp [sizeList, ih, Nat.add_assoc]

@[simp] theorem sizeList_reverse (xs : List Node) : sizeList xs.reverse = sizeList xs := by
  induction xs with
  | nil => rfl
  | cons x xs ih => simp [sizeList, ih, Nat.add_comm]

theorem size_le_sizeList {x : Node} {xs : List Node} (h : x ∈ xs) : x.size ≤ sizeList xs := by
  induction xs with
  | nil => simp at h
  | cons y ys ih =>
    rcases List.mem_cons.mp h with rfl | h
    · simp [sizeList]
    · have := ih h
      simp only [sizeList]
      omega

/-- A child is smaller than its parent. -/
theorem size_child_lt {n c : Node} (h : c ∈ n.children) : c.size < n.size := by
  have := size_le_sizeList h
  rw [size_eq n]
  omega

/-! ### Induction -/

/-- Induction on trees, with the hypothesis for every child. -/
@[elab_as_elim]
theorem induct {motive : Node → Prop}
    (node : ∀ n, (∀ c ∈ n.children, motive c) → motive n) (n : Node) : motive n :=
  node n fun c h =>
    have := size_child_lt h
    induct node c
termination_by n.size

end TreeRewriting.Node

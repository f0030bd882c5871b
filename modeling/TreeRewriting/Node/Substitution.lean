/-
TreeRewriting/Node/Substitution.lean

Substitutions applied to trees: every literal in the tree is taken to its
instance, and all else stays.
-/
import TreeRewriting.Node.Tree
import TreeRewriting.Substitution.Application

namespace TreeRewriting.Substitution

mutual

/-- The substitution applied to every literal of a tree. -/
def applyNode (s : Substitution) : Node → Node
  | .leaf (.predicate l) => .leaf (.predicate (s.applyLiteral l))
  | .leaf l => .leaf l
  | .unary op x => .unary op (applyNode s x)
  | .binary op a b => .binary op (applyNode s a) (applyNode s b)
  | .nary op xs => .nary op (applyNodes s xs)

/-- The substitution applied to each tree of a list. -/
def applyNodes (s : Substitution) : List Node → List Node
  | [] => []
  | x :: xs => applyNode s x :: applyNodes s xs

end

theorem applyNodes_eq_map (s : Substitution) (xs : List Node) :
    s.applyNodes xs = xs.map s.applyNode := by
  induction xs with
  | nil => rfl
  | cons x xs ih => simp [applyNodes, ih]

/-! ### What does not change -/

@[simp] theorem kind_applyNode (s : Substitution) (n : Node) : (s.applyNode n).kind = n.kind := by
  cases n with
  | leaf l => cases l <;> rfl
  | _ => rfl

theorem children_applyNode (s : Substitution) (n : Node) :
    (s.applyNode n).children = n.children.map s.applyNode := by
  cases n with
  | leaf l => cases l <;> rfl
  | unary => rfl
  | binary => rfl
  | nary op xs => exact applyNodes_eq_map s xs

@[simp] theorem arity_applyNode (s : Substitution) (n : Node) :
    (s.applyNode n).arity = n.arity := by
  rw [Node.arity, children_applyNode, List.length_map, Node.arity]

end TreeRewriting.Substitution

/-
TreeRewriting/Proofs/Node/Finiteness.lean

Trees in which every number is finite.

That all numbers are finite is said of all locations, and read off the operands:
a number is looked at, any other leaf holds none, and an operator has those of
its operands.  A rewrite therefore keeps a tree free of infinities in every
context when it does so by itself (`StaysFinite`).  Instances of literals do not
touch numbers.
-/
import TreeRewriting.Node.Substitution
import TreeRewriting.Proofs.Node.Context
import TreeRewriting.Proofs.Node.Everywhere

namespace TreeRewriting.Node

/-- Every number in the tree is finite. -/
def FiniteNumbers (n : Node) : Prop :=
  Everywhere (fun m => ∀ x, m = .number x → x.isFinite = true) n

/-! ### Leaves and operators -/

/-- What is not a number has the numbers of its operands. -/
theorem finiteNumbers_iff_children {n : Node} (h : n.kind ≠ .number) :
    n.FiniteNumbers ↔ ∀ c ∈ n.children, c.FiniteNumbers := by
  have hhere : ∀ x, n = .number x → x.isFinite = true := by
    rintro x rfl
    exact absurd rfl h
  exact everywhere_iff.trans (and_iff_right hhere)

@[simp] theorem finiteNumbers_number {x : Number} :
    (number x).FiniteNumbers ↔ x.isFinite = true := by
  refine everywhere_leaf.trans ⟨fun h => h x rfl, ?_⟩
  rintro h y ⟨⟩
  exact h

@[simp] theorem finiteNumbers_bool (b : Bool) : (bool b).FiniteNumbers :=
  everywhere_leaf.mpr nofun

@[simp] theorem finiteNumbers_var (i : Nat) : (var i).FiniteNumbers :=
  everywhere_leaf.mpr nofun

@[simp] theorem finiteNumbers_predicate (l : Literal) : (predicate l).FiniteNumbers :=
  everywhere_leaf.mpr nofun

@[simp] theorem finiteNumbers_unary {op : UnaryOp} {u : Node} :
    (unary op u).FiniteNumbers ↔ u.FiniteNumbers :=
  everywhere_unary.trans (and_iff_right nofun)

@[simp] theorem finiteNumbers_binary {op : BinaryOp} {u v : Node} :
    (binary op u v).FiniteNumbers ↔ u.FiniteNumbers ∧ v.FiniteNumbers :=
  everywhere_binary.trans (and_iff_right nofun)

@[simp] theorem finiteNumbers_nary {op : NaryOp} {xs : List Node} :
    (nary op xs).FiniteNumbers ↔ ∀ u ∈ xs, u.FiniteNumbers :=
  everywhere_iff.trans (and_iff_right nofun)

/-! ### Rewriting and instances -/

/-- All numbers of the second tree are finite if those of the first are. -/
def StaysFinite (n m : Node) : Prop := n.FiniteNumbers → m.FiniteNumbers

theorem contextClosed_staysFinite : ContextClosed StaysFinite := by
  apply ContextClosed.of_operators
  case unary =>
    intro op c d h hn
    exact finiteNumbers_unary.mpr (h (finiteNumbers_unary.mp hn))
  case left =>
    intro op c d b h hn
    obtain ⟨hc, hb⟩ := finiteNumbers_binary.mp hn
    exact finiteNumbers_binary.mpr ⟨h hc, hb⟩
  case right =>
    intro op a c d h hn
    obtain ⟨ha, hc⟩ := finiteNumbers_binary.mp hn
    exact finiteNumbers_binary.mpr ⟨ha, h hc⟩
  case nary =>
    intro op xs i c d hc h hn
    rw [finiteNumbers_nary] at hn ⊢
    intro u hu
    rcases List.mem_or_eq_of_mem_set hu with hu | rfl
    · exact hn u hu
    · exact h (hn c (List.mem_of_getElem? hc))

/-- Instances have the numbers of the tree. -/
theorem finiteNumbers_applyNode (s : Substitution) (n : Node) :
    (s.applyNode n).FiniteNumbers ↔ n.FiniteNumbers := by
  induction n using induct with
  | node n ih =>
    by_cases hkind : n.kind = .number
    · obtain ⟨x, rfl⟩ := kind_eq_number.mp hkind
      exact Iff.rfl
    · have hkind' : (s.applyNode n).kind ≠ .number := by rwa [s.kind_applyNode]
      rw [finiteNumbers_iff_children hkind, finiteNumbers_iff_children hkind',
        s.children_applyNode, List.forall_mem_map]
      exact forall₂_congr ih

end TreeRewriting.Node

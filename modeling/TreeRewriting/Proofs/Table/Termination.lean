/-
TreeRewriting/Proofs/Table/Termination.lean

Rewriting with the rules of the tables comes to an end.

Design.  Every rule of the tables lowers the potential of the node it rewrites,
whatever its guard says and whatever the operations on numbers give; this is
one small inequality for each way in which a table contracts a node.  What is
lowered at a location is lowered for the whole tree, so the potential of a tree
bounds the number of rewrites that can follow, and a session that may make so
many ends saturated.

Main result: `Table.rules_terminate`.
-/
import Mathlib.Algebra.Ring.Nat
import TreeRewriting.Proofs.Session.Preservation
import TreeRewriting.Proofs.Table.Faultless
import TreeRewriting.Proofs.Table.Potential

namespace TreeRewriting

open Node

variable {n m : Node}

/-! ### Table by table -/

theorem Algebra.Contracts.potential_lt (h : Contracts n m) : m.potential < n.potential := by
  cases h with
  | fold op =>
    have := op.add_le_potential 2 2
    simp only [potential]
    omega
  | foldUnary => exact Nat.lt_succ_self 2
  | dropLeft op =>
    have := op.add_le_potential 2 m.potential
    simp only [potential]
    omega
  | dropRight op =>
    have := op.add_le_potential m.potential 2
    simp only [potential]
    omega
  | absorbLeft op x z u =>
    have := op.add_le_potential 2 u.potential
    have := u.two_le_potential
    simp only [potential]
    omega
  | absorbRight op x z u =>
    have := op.add_le_potential u.potential 2
    have := u.two_le_potential
    simp only [potential]
    omega
  | negateNegate u =>
    simp only [potential]
    omega
  | plusSelf u v =>
    have := v.two_le_potential
    simp only [potential, BinaryOp.potential]
    omega

/-- A derivative pushed down pays for the copies of operands it leaves behind. -/
theorem Differentiation.Contracts.potential_lt (h : Contracts n m) :
    m.potential < n.potential := by
  cases h with
  | leaf =>
    simp only [potential, BinaryOp.potential]
    omega
  | plus u v =>
    have hu := u.two_le_potential
    -- the variable is copied, which the square of the sum has room for
    have hsum := add_mul_self_eq (u.potential + v.potential) 1
    have hsq := add_mul_self_eq u.potential v.potential
    simp only [potential, BinaryOp.potential]
    omega
  | product u v =>
    have hu := u.two_le_potential
    have hv := v.two_le_potential
    have hsq := add_mul_self_eq u.potential v.potential
    rw [Nat.mul_assoc] at hsq
    -- the mixed product outweighs both operands, and so pays for a copy of each
    have hleft : u.potential * 2 ≤ u.potential * v.potential := Nat.mul_le_mul_left _ hv
    have hright : 2 * v.potential ≤ u.potential * v.potential := Nat.mul_le_mul_right _ hu
    simp only [potential, BinaryOp.potential]
    omega
  | negate u =>
    have hu := u.two_le_potential
    have hsq := add_mul_self_eq u.potential 1
    simp only [potential, BinaryOp.potential]
    omega
  | power u =>
    have hu := u.two_le_potential
    have hsq := add_mul_self_eq u.potential 2
    simp only [potential, BinaryOp.potential]
    omega
  | ln u =>
    have hu := u.two_le_potential
    have hsq := add_mul_self_eq u.potential 1
    simp only [potential, BinaryOp.potential]
    omega

theorem Logic.Contracts.potential_lt (h : Contracts n m) : m.potential < n.potential := by
  cases h with
  | notNot u =>
    simp only [potential]
    omega
  | notConstant => exact Nat.lt_succ_self 2
  | keepLeft op u v =>
    have := op.add_le_potential m.potential v.potential
    have := v.two_le_potential
    simp only [potential]
    omega
  | keepRight op u v =>
    have := op.add_le_potential u.potential m.potential
    have := u.two_le_potential
    simp only [potential]
    omega
  | decide op u v =>
    have := op.add_le_potential u.potential v.potential
    have := u.two_le_potential
    have := v.two_le_potential
    simp only [potential]
    omega
  | tautology ls _ left =>
    -- a single literal of the clause outweighs the constant
    have := potentialList_eraseIdx left
    simp only [potential] at this ⊢
    omega

namespace Resolution

theorem potential_resolvent_lt {ls : List Node} {k : Nat} {p : Literal}
    (h : ls[k]? = some (.predicate p)) (s : Substitution) :
    (resolvent s k (.clause ls)).potential < (clause ls).potential := by
  have := potentialList_eraseIdx h
  rw [resolvent, potential_applyNode]
  simp only [potential] at this ⊢
  omega

theorem Clash.potential_resolve_lt (c : Clash n) (s : Substitution) :
    (c.resolve s).potential < n.potential := by
  calc (c.resolve s).potential
      < (n.set [c.i] (resolvent s c.k (.clause c.ls))).potential :=
        potential_set_lt (c.right_after _) (potential_resolvent_lt c.rightLiteral s)
    _ < n.potential := potential_set_lt c.left (potential_resolvent_lt c.leftLiteral s)

end Resolution

/-! ### All tables -/

namespace Table

theorem Contracts.potential_lt (h : Contracts n m) : m.potential < n.potential := by
  cases h with
  | algebra h => exact h.potential_lt
  | differentiation h => exact h.potential_lt
  | logic h => exact h.potential_lt
  | resolution c s => exact c.potential_resolve_lt s

/-- Where a rule of the tables matches, or fits and does not fault, it lowers the potential. -/
theorem Listed.potential_lt {r : Rule} (h : Listed r) {b : Binding} (hfit : r.Fits n b)
    (hdone : r.find? n = some b ∨ (r.rewrite n b).fault = none) :
    (r.rewrite n b).tree.potential < n.potential := by
  obtain ⟨m, hm, hcontracts⟩ := h.contracts hfit hdone
  rw [hm, Outcome.tree_done]
  exact hcontracts.potential_lt

/-- A session that may make as many rewrites as the tree has potential is saturated. -/
theorem saturated_of_potential_le {rules : RuleSet} (h : ∀ r ∈ rules.rules, Listed r)
    {limit : Nat} (hlimit : n.potential ≤ limit) :
    (Session.run ⟨limit, .fixpoint⟩ rules n).ending = .stopped .saturated := by
  refine (Session.passesFrom_account .fixpoint rules limit n).saturated_of_measure
    ?done ?lower hlimit
  case done =>
    intro o p x hx
    obtain ⟨-, hr, hfind⟩ := RuleSet.applies_of_redexAt? hx
    exact (h x.rule hr).faultless x.subtree x.binding hfind
  case lower =>
    intro o p x hx
    obtain ⟨-, hr, hfind⟩ := RuleSet.applies_of_redexAt? hx
    have hfit : x.rule.Fits x.subtree x.binding := (Rule.fits_of_find? hfind).1
    exact RuleSet.related_contract contextClosed_potential_lt hx
      ((h x.rule hr).potential_lt hfit (.inl hfind))

/-- **The rules of the tables terminate**, in any selection and order.  Whatever the tree, a
session that rewrites until nothing is left ends saturated if its limit is not below the
potential of the tree.  Every application of a rule at any location lowers this measure of
the whole tree.  Guards and operations on numbers play no part in that: it is lowered
wherever a rule fits and does not fault, and with any other numbers in what it leaves. -/
theorem rules_terminate {rules : RuleSet} (h : ∀ r ∈ rules.rules, Listed r) :
    (∀ (n : Node) (limit : Nat), n.potential ≤ limit →
        (Session.run ⟨limit, .fixpoint⟩ rules n).ending = .stopped .saturated) ∧
      ∀ r ∈ rules.rules, ∀ (n : Node) (p : Location) (m : Node), n.at? p = some m →
        (∀ out, r.outcome? m = some out → (n.set p out.tree).potential < n.potential) ∧
          ∀ b, r.Fits m b → (r.rewrite m b).fault = none →
            ∀ m' : Node, m'.SameButNumbers (r.rewrite m b).tree →
              (n.set p m').potential < n.potential := by
  refine ⟨?saturated, ?measure⟩
  case saturated =>
    intro n limit hlimit
    exact saturated_of_potential_le h hlimit
  case measure =>
    intro r hr n p m hm
    refine ⟨?outcome, ?fits⟩
    case outcome =>
      intro out hout
      obtain ⟨b, hfind, rfl⟩ := Option.map_eq_some_iff.mp hout
      exact potential_set_lt hm
        ((h r hr).potential_lt (Rule.fits_of_find? hfind).1 (.inl hfind))
    case fits =>
      intro b hfit hfault m' hm'
      -- the potential does not see which numbers have been written
      have hlt := (h r hr).potential_lt hfit (.inr hfault)
      rw [← hm'.potential_eq] at hlt
      exact potential_set_lt hm hlt

/-- All rules together, and resolution with the occurs check, on the derivative of a product
of two variables. -/
theorem rules_terminate_product :
    let rules := all.append [Resolution.rule true]
    (∀ r ∈ rules.rules, Listed r) ∧
      (Session.run ⟨18, .fixpoint⟩ rules
        (.differentiate (.product (.var 0) (.var 1)) (.var 0))).ending = .stopped .saturated := by
  have hlisted : ∀ r ∈ (all.append [Resolution.rule true]).rules, Listed r := by
    intro r hr
    rcases List.mem_append.mp hr with hr | hr
    · exact .inl hr
    · exact .inr ⟨true, List.mem_singleton.mp hr⟩
  exact ⟨hlisted, (rules_terminate hlisted).1 _ 18 (by decide)⟩

end Table

end TreeRewriting

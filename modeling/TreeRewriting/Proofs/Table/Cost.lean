/-
TreeRewriting/Proofs/Table/Cost.lean

Simplification does not make trees larger.

Design.  The rules of algebra and of logic and resolution drop operands and put
constants for operators.  Under thrifty weights each of the ways in which they
contract a node saves, and what a node saves the whole tree saves.  The one rule
that drops nothing replaces a sum of two equal operands by a product with two:
the size may stay what it was, and only the number of sums falls.  So the size
and the number of sums together bound the number of rewrites, the size alone
does not.

Main result: `Table.simplification_never_grows`.
-/
import TreeRewriting.Proofs.Node.Weight
import TreeRewriting.Proofs.Session.Preservation
import TreeRewriting.Proofs.Table.Faultless

namespace TreeRewriting

open Node

variable {n m : Node} {w : Node → Nat} {k : Nat}

theorem Node.Thrifty.precongruence (hw : Thrifty 0 w) :
    Precongruence fun n m => m.cost w + 0 ≤ n.cost w where
  refl _ := Nat.le_refl _
  trans hnm hmo := Nat.le_trans hmo hnm
  context := hw.contextClosed_cost

/-! ### Table by table -/

theorem Algebra.Contracts.cost_le (h : Contracts n m) (hw : Thrifty k w) :
    m.cost w + k ≤ n.cost w := by
  cases h with
  | fold op x y z =>
    have hz := hw.cost_constant_le (n := .number z) rfl (.number x)
    have hk := hw.le_cost (.leaf (.number y))
    simp only [cost] at hz hk ⊢
    omega
  | foldUnary op x z =>
    have hz := hw.cost_constant_le (n := .number z) rfl (.number x)
    have hk := hw.le_weight (.unary op (.number x))
    simp only [cost] at hz hk ⊢
    omega
  | dropLeft op x =>
    have hk := hw.le_weight (.leaf (.number x))
    simp only [cost]
    omega
  | dropRight op x =>
    have hk := hw.le_weight (.leaf (.number x))
    simp only [cost]
    omega
  | absorbLeft op x z u =>
    have hz := hw.cost_constant_le (n := .number z) rfl u
    have hk := hw.le_weight (.leaf (.number x))
    simp only [cost] at hz ⊢
    omega
  | absorbRight op x z u =>
    have hz := hw.cost_constant_le (n := .number z) rfl u
    have hk := hw.le_weight (.leaf (.number x))
    simp only [cost] at hz ⊢
    omega
  | negateNegate =>
    have hk := hw.le_weight (.unary .negate m)
    simp only [cost]
    omega
  | plusSelf u v =>
    -- the constant is paid for by the operand that goes, the operator by the sum
    have htwo := hw.cost_constant_le (n := .number 2) rfl v
    have hop := hw.product_add_le (.number 2) u u v
    simp only [cost] at htwo ⊢
    omega

theorem Logic.Contracts.cost_le (h : Contracts n m) (hw : Thrifty k w) :
    m.cost w + k ≤ n.cost w := by
  cases h with
  | notNot =>
    have hk := hw.le_weight (.unary .not m)
    simp only [cost]
    omega
  | notConstant t =>
    have ht := hw.cost_constant_le (n := .bool !t) rfl (.bool t)
    have hk := hw.le_weight (.unary .not (.bool t))
    simp only [cost] at ht hk ⊢
    omega
  | keepLeft op u v =>
    have hk := hw.le_cost v
    simp only [cost]
    omega
  | keepRight op u v =>
    have hk := hw.le_cost u
    simp only [cost]
    omega
  | decide op u v t =>
    have ht := hw.cost_constant_le (n := .bool t) rfl u
    have hk := hw.le_cost v
    simp only [cost] at ht ⊢
    omega
  | @tautology ls i _ p _ _ left =>
    have ht := hw.constant_le (n := .leaf (.bool true)) rfl (.nary .clause ls)
    have hk := hw.le_cost (.leaf (.predicate p))
    have hliteral := costList_eraseIdx (w := w) left
    simp only [cost] at hk hliteral ⊢
    omega

namespace Resolution

theorem cost_resolvent_le (hw : Thrifty k w) {ls : List Node} {i : Nat} {p : Literal}
    (h : ls[i]? = some (.predicate p)) (s : Substitution) :
    (resolvent s i (.clause ls)).cost w + k ≤ (clause ls).cost w := by
  have hclause : w (.nary .clause (ls.eraseIdx i)) ≤ w (.nary .clause ls) := by
    refine hw.mono (by rfl) ?_
    rw [arity_nary, arity_nary]
    exact List.length_eraseIdx_le ls i
  have hk := hw.le_cost (.leaf (.predicate p))
  have hliteral := costList_eraseIdx (w := w) h
  rw [resolvent, hw.cost_applyNode]
  simp only [cost] at hk hliteral ⊢
  omega

theorem Clash.cost_resolve_le (c : Clash n) (hw : Thrifty k w) (s : Substitution) :
    (c.resolve s).cost w + k ≤ n.cost w := by
  calc (c.resolve s).cost w + k
      ≤ (n.set [c.i] (resolvent s c.k (.clause c.ls))).cost w :=
        hw.cost_set_le (c.right_after _) (cost_resolvent_le hw c.rightLiteral s)
    _ ≤ (n.set [c.i] (resolvent s c.k (.clause c.ls))).cost w + k := Nat.le_add_right _ _
    _ ≤ n.cost w := hw.cost_set_le c.left (cost_resolvent_le hw c.leftLiteral s)

end Resolution

/-! ### All rules that simplify -/

namespace Table

/-- The rules of algebra and of logic, and resolution with the occurs check or without it. -/
def Simplifies (r : Rule) : Prop :=
  r ∈ Algebra.rules ∨ r ∈ Logic.rules ∨ ∃ check, r = Resolution.rule check

theorem Simplifies.listed {r : Rule} (h : Simplifies r) : Listed r := by
  rcases h with h | h | ⟨check, rfl⟩
  · exact .of_safe (mem_safe_iff.mpr (.inl h))
  · exact .of_safe (mem_safe_iff.mpr (.inr (.inr h)))
  · exact .inr ⟨check, rfl⟩

/-- Each of these rules saves wherever it matches. -/
theorem Simplifies.keeps_cost {r : Rule} (h : Simplifies r) (hw : Thrifty k w) :
    r.Keeps fun n m => m.cost w + k ≤ n.cost w := by
  apply Rule.keeps_of_done
  intro n b hfind
  have hfit := (Rule.fits_of_find? hfind).1
  rcases h with h | h | ⟨check, rfl⟩
  · obtain ⟨m, hdone, hm⟩ := Algebra.contracts_of_fits h hfit
    exact ⟨m, hdone, hm.cost_le hw⟩
  · obtain ⟨m, hdone, hm⟩ := Logic.contracts_of_fits h hfit
    exact ⟨m, hdone, hm.cost_le hw⟩
  · obtain ⟨c, s, rfl, hs⟩ := Resolution.unify_of_find? hfind
    exact ⟨_, Resolution.rewrite_of_unify c hs, c.cost_resolve_le hw s⟩

theorem sizeBefore_run (config : Config) (rules : RuleSet) (n : Node) :
    (Session.run config rules n).sizeBefore = n.size := by
  rw [Session.sizeBefore, Session.run, Session.before_passesFrom, cost_unitWeight]

/-- The nodes of a tree that simplification can take away, a sum being two. -/
def spare (n : Node) : Nat := n.size + n.countKind .plus - 1

section

variable {rules : RuleSet} (h : ∀ r ∈ rules.rules, Simplifies r)

include h

/-- What thrifty weights measure does not grow in a session. -/
theorem cost_after_le (hw : Thrifty 0 w) (config : Config) (n : Node) :
    (Session.run config rules n).after.cost w ≤ n.cost w :=
  Session.related_after hw.precongruence (fun r hr => (h r hr).keeps_cost hw) config n

/-- Every rewrite takes a node or a sum away, and one node is left in the end. -/
theorem spare_contract_lt (n : Node) (p : Location) (x : Redex)
    (hx : rules.redexAt? n p = some x) : spare (x.contract n) < spare n := by
  obtain ⟨-, hr, hfind⟩ := RuleSet.applies_of_redexAt? hx
  have hsaved := RuleSet.related_contract thrifty_unitWeight_add_plus.contextClosed_cost hx
    ((h x.rule hr).keeps_cost thrifty_unitWeight_add_plus _ _ hfind)
  simp only [cost_add, cost_unitWeight] at hsaved
  have hpos := size_pos (x.contract n)
  simp only [spare, countKind]
  omega

/-- **Simplification never grows the tree and needs a linear budget.**  Whatever rules of
algebra, of logic and of resolution a session is run with, in whatever order, and whatever
its strategy and its limit, neither the size nor the cost of the tree is larger afterwards.
There are fewer rewrites than nodes in the tree, its sums counted twice, and a session that
rewrites until nothing is left and may make so many ends saturated. -/
theorem simplification_never_grows (config : Config) (n : Node) :
    (Session.run config rules n).sizeAfter ≤ (Session.run config rules n).sizeBefore ∧
      (Session.run config rules n).after.cost weight ≤ n.cost weight ∧
      (Session.run config rules n).rewrites
        ≤ (Session.run config rules n).sizeBefore + n.countKind .plus - 1 ∧
      (config.strategy = .fixpoint →
        (Session.run config rules n).sizeBefore + n.countKind .plus - 1 ≤ config.limit →
        (Session.run config rules n).ending = .stopped .saturated) := by
  have haccount := Session.passesFrom_account config.strategy rules config.limit n
  rw [sizeBefore_run]
  refine ⟨?size, cost_after_le h thrifty_weight config n, ?rewrites, ?saturated⟩
  case size =>
    rw [← cost_unitWeight n]
    exact cost_after_le h thrifty_unitWeight config n
  case rewrites => exact haccount.length_le_of_measure (spare_contract_lt h)
  case saturated =>
    intro hfixpoint hlimit
    rw [hfixpoint] at haccount
    have hending := haccount.saturated_of_measure ?_ (spare_contract_lt h) hlimit
    · rw [Session.run, hfixpoint]
      exact hending
    · intro o p x hx
      obtain ⟨-, hr, hfind⟩ := RuleSet.applies_of_redexAt? hx
      exact (h x.rule hr).listed.faultless x.subtree x.binding hfind

end

/-- All of these rules, on the sum of a variable and itself.  The product it becomes has as
many nodes. -/
theorem simplification_never_grows_double :
    let rules := RuleSet.ofList
      (Algebra.rules ++ Logic.rules ++ [Resolution.rule false, Resolution.rule true])
    let n : Node := .plus (.var 0) (.var 0)
    (∀ r ∈ rules.rules, Simplifies r) ∧
      (Session.run ⟨3, .fixpoint⟩ rules n).sizeAfter ≤ 3 ∧
      (Session.run ⟨3, .fixpoint⟩ rules n).after.cost weight ≤ 4 ∧
      (Session.run ⟨3, .fixpoint⟩ rules n).rewrites ≤ 3 ∧
      (Session.run ⟨3, .fixpoint⟩ rules n).ending = .stopped .saturated := by
  intro rules n
  have hrules : ∀ r ∈ rules.rules, Simplifies r := by
    intro r hr
    simp only [rules, RuleSet.ofList, List.mem_append, List.mem_cons, List.not_mem_nil,
      or_false] at hr
    rcases hr with (hr | hr) | rfl | rfl
    · exact .inl hr
    · exact .inr (.inl hr)
    · exact .inr (.inr ⟨false, rfl⟩)
    · exact .inr (.inr ⟨true, rfl⟩)
  obtain ⟨hsize, hcost, hrewrites, hsaturated⟩ :=
    simplification_never_grows hrules ⟨3, .fixpoint⟩ n
  rw [sizeBefore_run] at hsize hrewrites hsaturated
  exact ⟨hrules, hsize, hcost, hrewrites, hsaturated rfl (by decide)⟩

end Table

end TreeRewriting

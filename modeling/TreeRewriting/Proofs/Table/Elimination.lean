/-
TreeRewriting/Proofs/Table/Elimination.lean

Derivatives are eliminated.

Design.  Two facts about differentiable expressions.  No rule of the tables
leads out of them (`Table.Listed.staysDifferentiable`), whichever rule fires
where; so the tree a session leaves is one of them.  And below a derivative
whose operand holds none there is always a rule that applies
(`Differentiation.exists_applies`); so a tree in which nothing applies has no
derivative at all.

Main result: `Table.derivatives_eliminated`.
-/
import TreeRewriting.Proofs.Node.Derivative
import TreeRewriting.Proofs.Table.Termination

namespace TreeRewriting

open Node

variable {n m : Node} {b : Binding}

/-! ### The fragment is closed under rewriting -/

theorem Algebra.Contracts.differentiable (h : Contracts n m) (hn : n.Differentiable) :
    m.Differentiable := by
  cases h with
  | fold op x y z => exact .number z
  | foldUnary op x z => exact .number z
  | dropLeft op x => exact hn.of_right
  | dropRight op x => exact hn.of_left
  | absorbLeft op x z => exact .number z
  | absorbRight op x z => exact .number z
  | negateNegate => exact hn.of_unary.of_unary
  | plusSelf u v => exact .product (.number 2) hn.of_left

theorem Differentiation.Contracts.differentiable (h : Contracts n m) (hn : n.Differentiable) :
    m.Differentiable := by
  cases h with
  | leaf l i z => exact .number z
  | plus u v i =>
    have huv : (Node.plus u v).Differentiable := hn.of_left
    exact .plus (.differentiate i huv.of_left) (.differentiate i huv.of_right)
  | product u v i =>
    have huv : (Node.product u v).Differentiable := hn.of_left
    exact .plus (.product (.differentiate i huv.of_left) huv.of_right)
      (.product (.differentiate i huv.of_right) huv.of_left)
  | negate u i => exact .negate (.differentiate i hn.of_left.of_unary)
  | power u k k' i =>
    have hu : u.Differentiable := hn.of_left.of_left
    exact .product (.product (.number k) (.power k' hu)) (.differentiate i hu)
  | ln u i z =>
    have hu : u.Differentiable := hn.of_left.of_unary
    exact .product (.differentiate i hu) (.power z hu)

/-- The rules of logic rewrite nothing that has a derivative. -/
theorem Logic.not_differentiable {r : Rule} (h : r ∈ rules) (hfit : r.Fits n b) :
    ¬n.Differentiable := by
  intro hn
  have hkind := kind_of_fits h hfit
  cases hn <;> simp [Leaf.kind, UnaryOp.kind, BinaryOp.kind] at hkind

/-- Clauses stand below none of these expressions. -/
theorem Resolution.Clash.not_differentiable (c : Clash n) : ¬n.Differentiable := by
  intro hn
  have hclause : clause c.ls ∈ n.children :=
    List.mem_of_getElem? ((at?_singleton n c.i).symm.trans c.left)
  cases hn.of_child hclause

namespace Table

/-- No rule of the tables leads out of the differentiable expressions. -/
theorem Listed.staysDifferentiable {r : Rule} (h : Listed r) :
    r.Keeps StaysDifferentiable := by
  intro n b hfind
  have hfit : r.Fits n b := (Rule.fits_of_find? hfind).1
  have hlt := h.potential_lt hfit (.inl hfind)
  refine ⟨?differentiable, ?leaf⟩
  case differentiable =>
    intro hn
    revert hfind hfit
    refine h.cases ?algebra ?differentiation ?logic ?resolution
    case algebra =>
      intro r hr _ hfit
      obtain ⟨m, hm, hcontracts⟩ := Algebra.contracts_of_fits hr hfit
      rw [hm, Outcome.tree_done]
      exact hcontracts.differentiable hn
    case differentiation =>
      intro r hr _ hfit
      obtain ⟨m, hm, hcontracts⟩ := Differentiation.contracts_of_fits hr hfit
      rw [hm, Outcome.tree_done]
      exact hcontracts.differentiable hn
    case logic =>
      intro r hr _ hfit
      exact absurd hn (Logic.not_differentiable hr hfit)
    case resolution =>
      intro check hfind _
      obtain ⟨c, -⟩ := Resolution.unify_of_find? hfind
      exact absurd hn c.not_differentiable
  case leaf =>
    -- nothing weighs less than a leaf, so no rule fits one
    intro hleaf
    obtain ⟨l, rfl⟩ := eq_leaf_of_isLeaf hleaf
    exact absurd hlt (Nat.not_lt.mpr (two_le_potential _))

end Table

/-! ### Progress -/

namespace Differentiation

/-- Some rule applies to a derivative whose operand is not a derivative itself. -/
theorem exists_applies {u : Node} (hu : u.Differentiable) (h : u.kind ≠ .differentiate) (i : Nat) :
    ∃ r ∈ rules, r.applies (.differentiate u (.var i)) = true := by
  cases hu with
  | number x =>
    have hfit : constant.Fits (.differentiate (.number x) (.var i)) [[], [0], [1]] :=
      (fits_binary .differentiate).mpr ⟨_, _, rfl, rfl, rfl, rfl⟩
    exact ⟨constant, by simp [rules], Rule.applies_of_unguarded rfl hfit⟩
  | var j =>
    -- two rules fit, and their guards tell them apart
    by_cases hji : j = i
    · have hfit : self.Fits (.differentiate (.var j) (.var i)) [[], [0], [1]] :=
        (fits_binary .differentiate).mpr ⟨_, _, rfl, rfl, rfl, rfl⟩
      refine ⟨self, by simp [rules], Rule.applies_of_fits hfit ?_⟩
      rintro guard ⟨⟩
      show (some j == some i) = true
      rw [hji, beq_self_eq_true]
    · have hfit : otherVariable.Fits (.differentiate (.var j) (.var i)) [[], [0], [1]] :=
        (fits_binary .differentiate).mpr ⟨_, _, rfl, rfl, rfl, rfl⟩
      refine ⟨otherVariable, by simp [rules], Rule.applies_of_fits hfit ?_⟩
      rintro guard ⟨⟩
      show (some j != some i) = true
      simpa using hji
  | @negate u hu =>
    have hfit : negate.Fits (.differentiate (.negate u) (.var i)) [[], [0], [0, 0], [1]] :=
      (fits_binary_unary .differentiate .negate).mpr ⟨_, _, rfl, rfl, rfl, rfl⟩
    exact ⟨negate, by simp [rules], Rule.applies_of_unguarded rfl hfit⟩
  | @ln u hu =>
    have hfit : ln.Fits (.differentiate (.ln u) (.var i)) [[], [0], [0, 0], [1]] :=
      (fits_binary_unary .differentiate .ln).mpr ⟨_, _, rfl, rfl, rfl, rfl⟩
    exact ⟨ln, by simp [rules], Rule.applies_of_unguarded rfl hfit⟩
  | @plus u v hu hv =>
    have hfit : plus.Fits (.differentiate (.plus u v) (.var i)) [[], [0], [0, 0], [0, 1], [1]] :=
      (fits_binary_binary .differentiate .plus).mpr ⟨_, _, _, rfl, rfl, rfl, rfl, rfl⟩
    exact ⟨plus, by simp [rules], Rule.applies_of_unguarded rfl hfit⟩
  | @product u v hu hv =>
    have hfit : product.Fits (.differentiate (.product u v) (.var i)) [[], [0], [0, 0], [0, 1], [1]] :=
      (fits_binary_binary .differentiate .product).mpr ⟨_, _, _, rfl, rfl, rfl, rfl, rfl⟩
    exact ⟨product, by simp [rules], Rule.applies_of_unguarded rfl hfit⟩
  | @power u k hu =>
    have hfit : power.Fits (.differentiate (.power u (.number k)) (.var i)) [[], [0], [0, 0], [0, 1], [1]] :=
      (fits_binary_binary .differentiate .power).mpr ⟨_, _, _, rfl, rfl, rfl, rfl, rfl⟩
    exact ⟨power, by simp [rules], Rule.applies_of_unguarded rfl hfit⟩
  | differentiate j hu => exact absurd rfl h

/-- Where no rule applies no derivative is left. -/
theorem derivativeFree_of_idle (hn : n.Differentiable)
    (h : n.Everywhere fun m => ∀ r ∈ rules, r.applies m = false) : n.DerivativeFree := by
  induction hn with
  | number x => exact everywhere_leaf.mpr nofun
  | var i => exact everywhere_leaf.mpr nofun
  | negate hu ih => exact everywhere_unary.mpr ⟨nofun, ih (everywhere_unary.mp h).2⟩
  | ln hu ih => exact everywhere_unary.mpr ⟨nofun, ih (everywhere_unary.mp h).2⟩
  | plus hu hv ihu ihv =>
    obtain ⟨-, hleft, hright⟩ := everywhere_binary.mp h
    exact everywhere_binary.mpr ⟨nofun, ihu hleft, ihv hright⟩
  | product hu hv ihu ihv =>
    obtain ⟨-, hleft, hright⟩ := everywhere_binary.mp h
    exact everywhere_binary.mpr ⟨nofun, ihu hleft, ihv hright⟩
  | power k hu ih =>
    exact everywhere_binary.mpr ⟨nofun, ih (everywhere_binary.mp h).2.1, everywhere_leaf.mpr nofun⟩
  | differentiate i hu ih =>
    -- the operand has no derivative left, so a rule applies here after all
    obtain ⟨hhere, hleft, -⟩ := everywhere_binary.mp h
    have hoperand := (everywhere_iff.mp (ih hleft)).1
    obtain ⟨r, hr, happlies⟩ := exists_applies hu hoperand i
    rw [hhere r hr] at happlies
    cases happlies

end Differentiation

/-! ### Sessions -/

theorem Node.staysDifferentiable_precongruence : Precongruence StaysDifferentiable where
  refl := .refl
  trans := .trans
  context := contextClosed_staysDifferentiable

namespace Table

/-- Whatever rules of the tables are used, as long as those of differentiation are among them,
a session that ends saturated leaves no derivative of a differentiable expression. -/
theorem derivativeFree_of_saturated {rules : RuleSet} (hlisted : ∀ r ∈ rules.rules, Listed r)
    (hall : ∀ r ∈ Differentiation.rules, r ∈ rules.rules) (hn : n.Differentiable) {config : Config}
    (hend : (Session.run config rules n).ending = .stopped .saturated) :
    (Session.run config rules n).after.DerivativeFree := by
  have hstays : StaysDifferentiable n (Session.run config rules n).after :=
    Session.related_after staysDifferentiable_precongruence
      (fun r hr => (hlisted r hr).staysDifferentiable) config n
  apply Differentiation.derivativeFree_of_idle (hstays.differentiable hn)
  intro p m hm r hr
  have hclear := Session.clear_of_saturated hend
  exact RuleSet.firstRedex?_eq_none_iff_applies.mp hclear p m hm r (hall r hr)

/-- **Derivatives are eliminated** by the rules of differentiation alone, by the safe rules and
by all rules.  A session on a differentiable expression that rewrites until nothing is left
ends saturated under every limit that is not below the potential of the expression; and
whenever it ends saturated the tree it leaves holds no derivative. -/
theorem derivatives_eliminated {rules : RuleSet}
    (hrules : rules ∈ [.ofList Differentiation.rules, safe, all]) (hn : n.Differentiable) :
    (∀ limit, n.potential ≤ limit →
        (Session.run ⟨limit, .fixpoint⟩ rules n).ending = .stopped .saturated) ∧
      ∀ limit, (Session.run ⟨limit, .fixpoint⟩ rules n).ending = .stopped .saturated →
        (Session.run ⟨limit, .fixpoint⟩ rules n).after.DerivativeFree := by
  obtain ⟨hlisted, hall⟩ : (∀ r ∈ rules.rules, Listed r) ∧
      ∀ r ∈ Differentiation.rules, r ∈ rules.rules := by
    simp only [List.mem_cons, List.not_mem_nil, or_false] at hrules
    rcases hrules with rfl | rfl | rfl
    · exact ⟨fun r hr => .of_safe (mem_safe_iff.mpr (.inr (.inl hr))), fun r hr => hr⟩
    · exact ⟨fun r hr => .of_safe hr, fun r hr => mem_safe_iff.mpr (.inr (.inl hr))⟩
    · exact ⟨fun r hr => .inl hr, fun r hr => mem_all_of_mem_safe (mem_safe_iff.mpr (.inr (.inl hr)))⟩
  exact ⟨fun limit hlimit => saturated_of_potential_le hlisted hlimit,
    fun limit hend => derivativeFree_of_saturated hlisted hall hn hend⟩

/-- All rules, on the second derivative of a cube. -/
theorem derivatives_eliminated_cube :
    let n : Node := .differentiate (.differentiate (.power (.var 0) (.number 3)) (.var 0)) (.var 0)
    all ∈ [.ofList Differentiation.rules, safe, all] ∧ n.Differentiable ∧
      (Session.run ⟨326, .fixpoint⟩ all n).ending = .stopped .saturated ∧
      (Session.run ⟨326, .fixpoint⟩ all n).after.DerivativeFree := by
  intro n
  have hrules : all ∈ [.ofList Differentiation.rules, safe, all] := by simp
  have hn : n.Differentiable := .differentiate 0 (.differentiate 0 (.power 3 (.var 0)))
  obtain ⟨hsaturated, hfree⟩ := derivatives_eliminated hrules hn
  have hend := hsaturated 326 (by decide)
  exact ⟨hrules, hn, hend, hfree 326 hend⟩

end Table

end TreeRewriting

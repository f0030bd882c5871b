/-
TreeRewriting/Proofs/Table/DualNumber.lean

Symbolic derivatives agree with dual numbers.

Design.  While a session carries out a derivative the tree holds the parts that
are done and derivatives that are not.  Read with dual numbers for the
derivatives it always has the value that dual numbers give the whole: this is a
rule of calculus for each rule of differentiation.  The session ends with a
tree without derivatives, whose value is the plain one.

Main result: `Table.differentiation_agrees_with_dual_numbers`.
-/
import Mathlib.Algebra.Ring.Int.Defs
import TreeRewriting.Proofs.Node.DualNumber
import TreeRewriting.Proofs.Table.Elimination

namespace TreeRewriting

open Node

universe u

variable {R : Type u} [CommRing R] {const : Number → R} {ln : R → R} {pow : R → R → R}
  {env : Nat → Option R}

theorem Node.keepsDerived_precongruence : Precongruence (KeepsDerived const ln pow env) where
  refl n := ⟨fun _ hv => hv, fun _ _ hd => hd, fun _ => rfl⟩
  trans {n m o} hnm hmo := by
    refine ⟨fun v hv => hmo.value v (hnm.value v hv),
      fun x d hd => hmo.dual x d (hnm.dual x d hd), ?_⟩
    intro hleaf
    obtain rfl : m = n := hnm.leaf hleaf
    exact hmo.leaf hleaf
  context := contextClosed_keepsDerived

/-! ### Rules -/

namespace Differentiation

/-- A derivative has no dual number, so only its value is to be kept. -/
theorem keepsDerived {e x m : Node}
    (h : Refines (derived const ln pow env) (.differentiate e x) m) :
    KeepsDerived const ln pow env (.differentiate e x) m :=
  ⟨h, fun _ => .of_none rfl, nofun⟩

theorem rules_keep (hzero : const 0 = 0) (hone : const 1 = 1) {r : Rule} (h : r ∈ rules) :
    r.Keeps (KeepsDerived const ln pow env) := by
  apply Rule.keeps_of_done
  intro n b hfind
  have hfit : r.Fits n b := (Rule.fits_of_find? hfind).1
  revert hfind hfit
  refine rules_cases ?constant ?self ?otherVariable ?plus ?product ?negate ?power ?ln h
  case constant =>
    intro _ hfit
    obtain ⟨c, i, rfl, -, hdone⟩ := constant_of_fits hfit
    exact ⟨_, hdone, keepsDerived (refines_differentiate_number i hzero c)⟩
  case self =>
    intro hfind _
    obtain ⟨i, rfl, hdone⟩ := self_of_find? hfind
    exact ⟨_, hdone, keepsDerived (refines_differentiate_self i hone)⟩
  case otherVariable =>
    intro hfind _
    obtain ⟨j, i, hji, rfl, hdone⟩ := otherVariable_of_find? hfind
    exact ⟨_, hdone, keepsDerived (refines_differentiate_other i hzero hji)⟩
  case plus =>
    intro _ hfit
    obtain ⟨u, v, i, rfl, -, hdone⟩ := plus_of_fits hfit
    exact ⟨_, hdone, keepsDerived (refines_differentiate_plus i u v)⟩
  case product =>
    intro _ hfit
    obtain ⟨u, v, i, rfl, -, hdone⟩ := product_of_fits hfit
    exact ⟨_, hdone, keepsDerived (refines_differentiate_product i u v)⟩
  case negate =>
    intro _ hfit
    obtain ⟨u, i, rfl, -, hdone⟩ := negate_of_fits hfit
    exact ⟨_, hdone, keepsDerived (refines_differentiate_negate i u)⟩
  case power =>
    intro _ hfit
    obtain ⟨u, k, i, rfl, -, hdone⟩ := power_of_fits hfit
    exact ⟨_, hdone, keepsDerived (refines_differentiate_power i u k)⟩
  case ln =>
    intro _ hfit
    obtain ⟨u, i, rfl, -, hdone⟩ := ln_of_fits hfit
    exact ⟨_, hdone, keepsDerived (refines_differentiate_ln i u)⟩

end Differentiation

/-! ### Sessions -/

namespace Table

/-- **Symbolic differentiation agrees with dual numbers.**  Let the constants zero and one have
their values in a commutative ring.  A differentiable expression without derivatives whose
variables have values has a dual number for each variable, and under every limit that is not
below the potential of its derivative by that variable a session with the rules of
differentiation leaves a tree of which the value is the derivative in the dual number. -/
theorem differentiation_agrees_with_dual_numbers (ln : R → R) (pow : R → R → R)
    (hzero : const 0 = 0) (hone : const 1 = 1) {e : Node} (he : e.Differentiable)
    (hfree : e.DerivativeFree) (henv : e.Covers env) (x : Nat) :
    ∃ d, e.dual const ln pow x env = some d ∧
      ∀ limit, (Node.differentiate e (.var x)).potential ≤ limit →
        (Session.run ⟨limit, .fixpoint⟩ (.ofList Differentiation.rules)
          (.differentiate e (.var x))).after.eval (.ofRing const ln pow) env = some d.snd := by
  obtain ⟨d, hd⟩ : ∃ d, e.dual const ln pow x env = some d := exists_dual he hfree henv x
  refine ⟨d, hd, ?_⟩
  intro limit hlimit
  have hlisted : ∀ r ∈ (RuleSet.ofList Differentiation.rules).rules, Listed r := by
    intro r hr
    exact .of_safe (mem_safe_iff.mpr (.inr (.inl hr)))
  have hafter := derivativeFree_of_saturated hlisted (fun _ hr => hr) (.differentiate x he)
    (saturated_of_potential_le hlisted hlimit)
  have hrules : ∀ r ∈ (RuleSet.ofList Differentiation.rules).rules,
      r.Keeps (KeepsDerived const ln pow env) := by
    intro r hr
    exact Differentiation.rules_keep hzero hone hr
  have hkept := Session.related_after keepsDerived_precongruence hrules ⟨limit, .fixpoint⟩
    (.differentiate e (.var x))
  -- nothing is left to be read with dual numbers, so the value is the plain one
  rw [← derived_of_derivativeFree _ hafter]
  exact hkept.value d.snd (derived_differentiate hd)

/-- A cube plus a product, over the integers: the derivative by the first variable is three
times its square plus the second variable. -/
theorem differentiation_agrees_with_dual_numbers_integers :
    let const : Number → ℤ := fun x => if x = 1 then 1 else if x = 2 then 2 else if x = 3 then 3 else 0
    let pow : ℤ → ℤ → ℤ := fun r k => r ^ k.toNat
    let env : Nat → Option ℤ := fun i => if i = 0 then some 5 else some 7
    let e : Node := .plus (.power (.var 0) (.number 3)) (.product (.var 0) (.var 1))
    const 0 = 0 ∧ const 1 = 1 ∧ e.Differentiable ∧ e.DerivativeFree ∧ e.Covers env ∧
      (Session.run ⟨100, .fixpoint⟩ (.ofList Differentiation.rules)
        (.differentiate e (.var 0))).after.eval (.ofRing const (fun _ => 0) pow) env
          = some (3 * 5 ^ 2 + 7) := by
  intro const pow env e
  have hzero : const 0 = 0 := by decide +kernel
  have hone : const 1 = 1 := by decide +kernel
  have he : e.Differentiable := .plus (.power 3 (.var 0)) (.product (.var 0) (.var 1))
  have hfree : e.DerivativeFree := by
    simp [e, DerivativeFree, everywhere_binary, everywhere_leaf, BinaryOp.kind, Leaf.kind]
  have henv : e.Covers env := by
    simp [e, env, Covers, everywhere_binary, everywhere_leaf]
  obtain ⟨d, hd, hafter⟩ :=
    differentiation_agrees_with_dual_numbers (fun _ => 0) pow hzero hone he hfree henv 0
  have hderivative : (e.dual const (fun _ => 0) pow 0 env).map TrivSqZeroExt.snd
      = some (3 * 5 ^ 2 + 7) := by
    decide +kernel
  rw [hd] at hderivative
  exact ⟨hzero, hone, he, hfree, henv, (hafter 100 (by decide)).trans hderivative⟩

end Table

end TreeRewriting

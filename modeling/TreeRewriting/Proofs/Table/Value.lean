/-
TreeRewriting/Proofs/Table/Value.lean

The identities of algebra preserve values.

Design.  Values are taken in a commutative ring, with any logarithm, any powers
and any meaning of constants that gives the few constants which rules mention
the value they are named for (`ExactConstants`).  Guards compare numbers; what
compares equal to zero is one of the two zeros, which have the same value, and
what compares equal to one is one.  A sum of equal operands is rewritten only
where they are the same tree, and so have the same value.

Main result: `Table.identities_preserve_value`.
-/
import Mathlib.Algebra.Ring.Int.Defs
import TreeRewriting.Proofs.Node.Value
import TreeRewriting.Proofs.Number.Comparison
import TreeRewriting.Proofs.Session.Preservation
import TreeRewriting.Proofs.Table.Contraction

namespace TreeRewriting

open Node

universe u

variable {R : Type u} [CommRing R] {const : Number → R} {ln : R → R} {pow : R → R → R}

/-- The constants that the identities of algebra mention have their values, and powers and
logarithms agree with them. -/
structure ExactConstants (const : Number → R) (ln : R → R) (pow : R → R → R) : Prop where
  zero : const 0 = 0
  negative_zero : const (-0) = 0
  one : const 1 = 1
  two : const 2 = 1 + 1
  pow_one : ∀ r, pow r 1 = r
  pow_zero : ∀ r, pow r 0 = 1
  ln_one : ln 1 = 0

namespace ExactConstants

variable {x : Number}

theorem const_of_beq_zero (hc : ExactConstants const ln pow) (h : (x == 0) = true) :
    const x = 0 := by
  rcases Number.eq_zero_of_beq h with rfl | rfl
  · exact hc.zero
  · exact hc.negative_zero

theorem const_of_beq_one (hc : ExactConstants const ln pow) (h : (x == 1) = true) :
    const x = 1 := by
  rw [Number.eq_one_of_beq h, hc.one]

end ExactConstants

/-! ### Identities -/

namespace Algebra

variable {env : Nat → Option R}

/-- A constant that is neutral for the operator may be dropped. -/
theorem dropUnit_keeps (op : BinaryOp) {g : R → R → R} {unit : Number}
    (hop : (Arithmetic.ofRing const ln pow).binary? op = some g)
    (hleft : ∀ x, (x == unit) = true → ∀ r, g (const x) r = r)
    (hright : ∀ x, (x == unit) = true → ∀ r, g r (const x) = r) (name : String) :
    (dropUnit name op.kind unit).Keeps (Refines (eval (.ofRing const ln pow) env)) := by
  apply Rule.keeps_of_done
  intro n b hfind
  obtain ⟨x, u, hx, hn, hdone⟩ := dropUnit_of_find? hfind
  refine ⟨_, hdone, ?_⟩
  rcases hn with rfl | rfl
  · exact refines_neutral_left hop u (hleft x hx)
  · exact refines_neutral_right hop u (hright x hx)

section

variable (hc : ExactConstants const ln pow)

include hc

theorem plusZero_keeps : plusZero.Keeps (Refines (eval (.ofRing const ln pow) env)) := by
  refine dropUnit_keeps .plus rfl ?left ?right _
  case left =>
    intro x hx r
    show const x + r = r
    rw [hc.const_of_beq_zero hx, zero_add]
  case right =>
    intro x hx r
    show r + const x = r
    rw [hc.const_of_beq_zero hx, add_zero]

theorem productOne_keeps : productOne.Keeps (Refines (eval (.ofRing const ln pow) env)) := by
  refine dropUnit_keeps .product rfl ?left ?right _
  case left =>
    intro x hx r
    show const x * r = r
    rw [hc.const_of_beq_one hx, one_mul]
  case right =>
    intro x hx r
    show r * const x = r
    rw [hc.const_of_beq_one hx, mul_one]

theorem productByZero_keeps :
    productByZero.Keeps (Refines (eval (.ofRing const ln pow) env)) := by
  apply Rule.keeps_of_done
  intro n b hfind
  obtain ⟨x, u, hx, hn, hdone⟩ := productByZero_of_find? hfind
  refine ⟨_, hdone, ?_⟩
  have hzero : const x = 0 := hc.const_of_beq_zero hx
  rcases hn with rfl | rfl
  · apply refines_absorbing_left rfl
    intro r
    show const x * r = const 0
    rw [hzero, hc.zero, zero_mul]
  · apply refines_absorbing_right rfl
    intro r
    show r * const x = const 0
    rw [hzero, hc.zero, mul_zero]

theorem powerOne_keeps : powerOne.Keeps (Refines (eval (.ofRing const ln pow) env)) := by
  apply Rule.keeps_of_done
  intro n b hfind
  obtain ⟨u, k, hk, rfl, hdone⟩ := powerOne_of_find? hfind
  refine ⟨_, hdone, ?_⟩
  apply refines_neutral_right rfl
  intro r
  show pow r (const k) = r
  rw [hc.const_of_beq_one hk, hc.pow_one]

theorem powerZero_keeps : powerZero.Keeps (Refines (eval (.ofRing const ln pow) env)) := by
  apply Rule.keeps_of_done
  intro n b hfind
  obtain ⟨u, k, hk, rfl, hdone⟩ := powerZero_of_find? hfind
  refine ⟨_, hdone, ?_⟩
  apply refines_absorbing_right rfl
  intro r
  show pow r (const k) = const 1
  rw [hc.const_of_beq_zero hk, hc.pow_zero, hc.one]

theorem lnOne_keeps : lnOne.Keeps (Refines (eval (.ofRing const ln pow) env)) := by
  apply Rule.keeps_of_done
  intro n b hfind
  obtain ⟨x, hx, rfl, hdone⟩ := lnOne_of_find? hfind
  refine ⟨_, hdone, ?_⟩
  apply Refines.of_eq
  show some (ln (const x)) = some (const 0)
  rw [hc.const_of_beq_one hx, hc.ln_one, hc.zero]

theorem plusSelf_keeps : plusSelf.Keeps (Refines (eval (.ofRing const ln pow) env)) := by
  apply Rule.keeps_of_done
  intro n b hfind
  obtain ⟨u, -, rfl, hdone⟩ := plusSelf_of_find? hfind
  refine ⟨_, hdone, ?_⟩
  apply refines_double
  intro r
  show r + r = const 2 * r
  rw [hc.two, add_mul, one_mul]

end

theorem negateNegate_keeps :
    negateNegate.Keeps (Refines (eval (.ofRing const ln pow) env)) := by
  apply Rule.keeps_of_fits
  intro n b hfit
  obtain ⟨u, rfl, -, hdone⟩ := negateNegate_of_fits hfit
  exact ⟨_, hdone, refines_negate_negate neg_neg u⟩

/-- Every identity keeps values. -/
theorem identities_keep (hc : ExactConstants const ln pow) :
    ∀ r ∈ identities, r.Keeps (Refines (eval (.ofRing const ln pow) env)) := by
  intro r h
  simp only [identities, List.mem_cons, List.not_mem_nil, or_false] at h
  rcases h with rfl | rfl | rfl | rfl | rfl | rfl | rfl | rfl
  · exact plusZero_keeps hc
  · exact productOne_keeps hc
  · exact productByZero_keeps hc
  · exact powerOne_keeps hc
  · exact powerZero_keeps hc
  · exact negateNegate_keeps
  · exact lnOne_keeps hc
  · exact plusSelf_keeps hc

end Algebra

/-! ### Sessions -/

namespace Table

/-- **The identities of algebra preserve values in exact arithmetic**, in any selection and
order.  Whatever the commutative ring, the environment and the tree, and however the session
is run, a tree that has a value is left as a tree of the same value. -/
theorem identities_preserve_value (hc : ExactConstants const ln pow) {rules : RuleSet}
    (h : ∀ r ∈ rules.rules, r ∈ Algebra.identities) (config : Config) (n : Node)
    (env : Nat → Option R) (v : R) (hv : n.eval (.ofRing const ln pow) env = some v) :
    (Session.run config rules n).after.eval (.ofRing const ln pow) env = some v := by
  have hrules : ∀ r ∈ rules.rules, r.Keeps (Refines (eval (.ofRing const ln pow) env)) := by
    intro r hr
    exact Algebra.identities_keep hc r (h r hr)
  exact Session.related_after (.refines contextClosed_eval) hrules config n v hv

/-- All identities, on negative zero plus a variable plus the variable's first power, over the
integers. -/
theorem identities_preserve_value_integers :
    let const : Number → ℤ := fun x => if x = 1 then 1 else if x = 2 then 2 else 0
    let pow : ℤ → ℤ → ℤ := fun r k => r ^ k.toNat
    let A := Arithmetic.ofRing const (fun _ => 0) pow
    let rules := RuleSet.ofList Algebra.identities
    let n : Node := .plus (.plus (.number (-0)) (.var 0)) (.power (.var 0) (.number 1))
    ExactConstants const (fun _ => 0) pow ∧ (∀ r ∈ rules.rules, r ∈ Algebra.identities) ∧
      n.eval A (fun _ => some 5) = some 10 ∧
      (Session.run ⟨100, .fixpoint⟩ rules n).after.eval A (fun _ => some 5) = some 10 := by
  intro const pow A rules n
  have hc : ExactConstants const (fun _ => 0) pow :=
    { zero := by decide +kernel
      negative_zero := by decide +kernel
      one := by decide +kernel
      two := by decide +kernel
      pow_one := fun r => pow_one r
      pow_zero := fun r => pow_zero r
      ln_one := rfl }
  have hrules : ∀ r ∈ rules.rules, r ∈ Algebra.identities := fun _ hr => hr
  have hvalue : n.eval A (fun _ => some 5) = some 10 := by decide +kernel
  exact ⟨hc, hrules, hvalue, identities_preserve_value hc hrules ⟨100, .fixpoint⟩ n _ 10 hvalue⟩

end Table

end TreeRewriting

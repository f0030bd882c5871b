/-
TreeRewriting/Proofs/Table/Truth.lean

The safe rules preserve truth.

Design.  A rule keeps truth when the tree it leaves has the value of the tree it
finds, provided that one has a value.  For the rules of logic this is the law of
propositional logic that the rule is named for, with what its guard has seen;
both connectives are covered by the truth value that decides them.  A rule of
algebra or of differentiation rewrites an operator on numbers, which has no
truth value to begin with.  What the rules keep, sessions keep in every context
(`Session.related_after`).

Main result: `Table.safe_rules_preserve_truth`.
-/
import TreeRewriting.Proofs.Node.Identity
import TreeRewriting.Proofs.Node.Truth
import TreeRewriting.Proofs.Session.Preservation
import TreeRewriting.Proofs.Table.Contraction

namespace TreeRewriting

open Node

variable {f : Node → Option Bool} {op : BinaryOp} {t : Bool}

/-! ### Logic -/

namespace Logic

theorem notNot_keeps (hf : Propositional f) : notNot.Keeps (Refines f) := by
  apply Rule.keeps_of_fits
  intro n b hfit
  obtain ⟨u, rfl, -, hdone⟩ := notNot_of_fits hfit
  exact ⟨_, hdone, hf.not_not u⟩

theorem notConstant_keeps (hf : Propositional f) : notConstant.Keeps (Refines f) := by
  apply Rule.keeps_of_fits
  intro n b hfit
  obtain ⟨v, rfl, -, hdone⟩ := notConstant_of_fits hfit
  exact ⟨_, hdone, hf.not_bool v⟩

/-- The constant that does not decide the connective leaves the other operand. -/
theorem absorb_neutral_keeps (hf : Propositional f) (hop : op.Decides t) (name : String) :
    (absorb name op.kind (!t) true).Keeps (Refines f) := by
  apply Rule.keeps_of_done
  intro n b hfind
  obtain ⟨u, hn, hdone⟩ := absorb_of_find? hfind
  refine ⟨u, hdone, ?_⟩
  rcases hn with rfl | rfl
  · exact hf.neutral_left hop u
  · exact hf.neutral_right hop u

/-- The constant that decides the connective is what is left. -/
theorem absorb_deciding_keeps (hf : Propositional f) (hop : op.Decides t) (name : String) :
    (absorb name op.kind t false).Keeps (Refines f) := by
  apply Rule.keeps_of_done
  intro n b hfind
  obtain ⟨u, hn, hdone⟩ := absorb_of_find? hfind
  refine ⟨.bool t, hdone, ?_⟩
  rcases hn with rfl | rfl
  · exact hf.deciding_left hop u
  · exact hf.deciding_right hop u

theorem complement_keeps (hf : Propositional f) (hop : op.Decides t) (name : String) :
    (complement name op.kind t).Keeps (Refines f) := by
  apply Rule.keeps_of_done
  intro n b hfind
  obtain ⟨u, hn, hdone⟩ := complement_of_find? hfind
  refine ⟨_, hdone, ?_⟩
  rcases hn with rfl | rfl
  · exact hf.complement_left hop u
  · exact hf.complement_right hop u

theorem idempotent_keeps (hf : Propositional f) (hop : op.Decides t) (name : String) :
    (idempotent name op.kind).Keeps (Refines f) := by
  apply Rule.keeps_of_done
  intro n b hfind
  obtain ⟨u, rfl, hdone⟩ := idempotent_of_find? hfind
  exact ⟨_, hdone, hf.idempotent hop u⟩

theorem clauseTautology_keeps (hf : Propositional f) : clauseTautology.Keeps (Refines f) := by
  apply Rule.keeps_of_done
  intro n b hfind
  obtain ⟨ls, p, q, rfl, hp, hq, hpq, hname, hargs, hdone⟩ := clauseTautology_of_find? hfind
  refine ⟨_, hdone, ?_⟩
  intro v hv
  obtain rfl : v = true := hf.tautology hp hq hpq hname hargs v hv
  exact hf.bool true

/-- Every rule of logic keeps truth. -/
theorem rules_keep (hf : Propositional f) : ∀ r ∈ rules, r.Keeps (Refines f) := by
  intro r h
  simp only [rules, List.mem_cons, List.not_mem_nil, or_false] at h
  rcases h with rfl | rfl | rfl | rfl | rfl | rfl | rfl | rfl | rfl | rfl | rfl
  · exact notNot_keeps hf
  · exact notConstant_keeps hf
  · exact absorb_neutral_keeps hf .and _
  · exact absorb_deciding_keeps hf .and _
  · exact absorb_neutral_keeps hf .or _
  · exact absorb_deciding_keeps hf .or _
  · exact complement_keeps hf .or _
  · exact complement_keeps hf .and _
  · exact idempotent_keeps hf .or _
  · exact idempotent_keeps hf .and _
  · exact clauseTautology_keeps hf

end Logic

/-! ### Sessions -/

namespace Table

/-- Every safe rule keeps truth; on numbers there is nothing to keep. -/
theorem safe_keeps (hf : Propositional f) : ∀ r ∈ safe.rules, r.Keeps (Refines f) := by
  intro r h
  have hnumbers : (∀ n b, r.Fits n b → n.kind.isArithmetic = true) → r.Keeps (Refines f) := by
    intro hkind n b hfind
    exact .of_none (hf.arithmetic (hkind n b (Rule.fits_of_find? hfind).1))
  rcases mem_safe_iff.mp h with h | h | h
  · apply hnumbers
    intro n b hfit
    have hkinds : ∀ k ∈ [Kind.negate, .ln, .plus, .product, .power], k.isArithmetic = true := by
      decide
    exact hkinds n.kind (Algebra.kind_of_fits h hfit)
  · apply hnumbers
    intro n b hfit
    rw [Differentiation.kind_of_fits h hfit]
    rfl
  · exact Logic.rules_keep hf r h

/-- **Safe rules preserve truth**, in any selection and order.  Whatever the tree, the
environment and the assignment to atoms, and however the session is run, a tree that is true
or false is left as a tree that is so too; and the same holds when literals and clauses have
no value. -/
theorem safe_rules_preserve_truth {rules : RuleSet} (h : ∀ r ∈ rules.rules, r ∈ safe.rules)
    (config : Config) (n : Node) (env : Nat → Option Bool) :
    (∀ (I : Assignment) (v : Bool), n.truth I env = some v →
        (Session.run config rules n).after.truth I env = some v) ∧
      ∀ v : Bool, n.evalBool env = some v →
        (Session.run config rules n).after.evalBool env = some v := by
  have hkept : ∀ f, Propositional f → Refines f n (Session.run config rules n).after := by
    intro f hf
    exact Session.related_after (.refines hf.contextClosed)
      (fun r hr => safe_keeps hf r (h r hr)) config n
  exact ⟨fun I => hkept _ (truth_propositional I env), hkept _ (evalBool_propositional env)⟩

/-- The rules of logic alone, on a literal and its negation. -/
theorem safe_rules_preserve_truth_contradiction :
    let rules := RuleSet.ofList Logic.rules
    let p : Literal := ⟨"P", [.var 0], false⟩
    let n : Node := .and (.not (.not (.predicate p))) (.not (.predicate p))
    (∀ r ∈ rules.rules, r ∈ safe.rules) ∧ n.truth (fun _ _ => true) (fun _ => none) = some false ∧
      (Session.run ⟨100, .fixpoint⟩ rules n).after.truth (fun _ _ => true) (fun _ => none)
        = some false := by
  intro rules p n
  have hsafe : ∀ r ∈ rules.rules, r ∈ safe.rules := by
    intro r hr
    exact mem_safe_iff.mpr (.inr (.inr hr))
  have hfalse : n.truth (fun _ _ => true) (fun _ => none) = some false := rfl
  exact ⟨hsafe, hfalse,
    (safe_rules_preserve_truth hsafe ⟨100, .fixpoint⟩ n fun _ => none).1 _ false hfalse⟩

end Table

end TreeRewriting

/-
TreeRewriting/Proofs/Termination.lean

Runs that end.

Design.  Steps are any relation between states.  They end from a state when no
run from it goes on for ever (`Terminates`), which is the accessibility that
induction along the steps needs (`terminates_iff_acc`).  There are two ways to
show it: a measure that every step decreases while it keeps an invariant
(`Terminates.of_decreasing`), or, where there is never a choice, one run that
comes to a state without a step (`Terminates.of_path`).
-/
import Mathlib.Logic.Relation
import Mathlib.Order.WellFounded

namespace TreeRewriting

open Relation

variable {α β : Type} {R : α → α → Prop} {a b : α}

/-- Steps from a state come to an end: no run goes on for ever. -/
def Terminates (R : α → α → Prop) (a : α) : Prop :=
  ¬ ∃ run : ℕ → α, run 0 = a ∧ ∀ n, R (run n) (run (n + 1))

theorem terminates_iff_acc : Terminates R a ↔ Acc (flip R) a := by
  rw [Terminates, not_iff_comm]
  exact not_acc_iff_exists_descending_chain

/-- Steps end where every step leads to a state from which they do. -/
theorem Terminates.of_step (h : ∀ b, R a b → Terminates R b) : Terminates R a :=
  terminates_iff_acc.mpr (.intro a fun b hb => terminates_iff_acc.mp (h b hb))

/-- Steps end when each keeps an invariant and decreases a measure. -/
theorem Terminates.of_decreasing [WellFoundedRelation β] {P : α → Prop} (μ : α → β)
    (h : ∀ a b, P a → R a b → P b ∧ WellFoundedRelation.rel (μ b) (μ a)) (ha : P a) :
    Terminates R a := by
  rintro ⟨run, rfl, hrun⟩
  -- the invariant holds all along the run, so the measure would decrease for ever
  have hP : ∀ n, P (run n) := by
    intro n
    induction n with
    | zero => exact ha
    | succ n ih => exact (h _ _ ih (hrun n)).1
  have hlt : ∀ n, WellFoundedRelation.rel (μ (run (n + 1))) (μ (run n)) :=
    fun n => (h _ _ (hP n) (hrun n)).2
  exact (wellFounded_iff_isEmpty_descending_chain.mp WellFoundedRelation.wf).false
    ⟨fun n => μ (run n), hlt⟩

/-- Steps that leave no choice end when they come to a state that has none. -/
theorem Terminates.of_path (hR : ∀ {a b c}, R a b → R a c → b = c)
    (h : ReflTransGen R a b) (hb : ∀ c, ¬ R b c) : Terminates R a := by
  induction h using ReflTransGen.head_induction_on with
  | refl => exact .of_step fun c hc => absurd hc (hb c)
  | head hac _ ih => exact .of_step fun d hd => hR hac hd ▸ ih

end TreeRewriting

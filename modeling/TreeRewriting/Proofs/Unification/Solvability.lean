/-
TreeRewriting/Proofs/Unification/Solvability.lean

When unification succeeds.

Design.  With the occurs check there has to be a solution that consists of terms,
without it one of infinite trees.  Both are solutions that are admitted under the
setting (`Admits`), so success can be said once for both: the lists are equally
long and their pairs have a solution that is admitted (`exists_unifier_iff`).
This speaks of the set of pairs and of equality of trees only, so it does not
matter in which order the pairs come or which side of a pair is which
(`exists_unifier_iff_of_reordered`).

Main results: `exists_unifier_iff` and, for literals, `canUnify_comm`.
-/
import Mathlib.Data.List.Zip
import TreeRewriting.Proofs.Unification.InfiniteUnifier
import TreeRewriting.Proofs.Unification.MostGeneral

namespace TreeRewriting

namespace Unification

variable {check : Bool} {ρ : Nat → InfiniteTree} {left right : List Term} {s : State}

/-! ### Solutions that are admitted -/

/-- With the occurs check a solution has to put terms for variables, without it any trees. -/
def Admits (check : Bool) (ρ : Nat → InfiniteTree) : Prop :=
  check = true → ∃ θ : Nat → Term, ρ = fun v => (θ v).tree

/-- The bindings of a run have a solution that is admitted. -/
theorem exists_satisfies (h : Moves check (start left right) s) :
    ∃ ρ, Admits check ρ ∧ Satisfies ρ s.bindings := by
  cases check with
  | false =>
    have hs := noAliasCycle_of_moves h Substitution.acyclic_empty.noAliasCycle
    exact ⟨_, by rintro ⟨⟩, satisfies_unfold hs⟩
  | true =>
    -- no cycle has been formed, so the variables stand for their expansions
    have hs := acyclic_of_moves h Substitution.acyclic_empty
    exact ⟨_, fun _ => ⟨_, rfl⟩, satisfies_tree_iff.mpr (respects_expand hs)⟩

/-- Where a step fails there is no solution that is admitted. -/
theorem State.Stuck.not_admitted {c : Clash} (h : Stuck check s c) (hb : s.bindings.NoAliasCycle)
    (hρ : Admits check ρ) : ¬ s.Solved ρ := by
  cases check with
  | false =>
    cases c with
    | symbols f g => exact h.not_solved
    | occurs v t =>
      cases h with
      | occurs front new assigns checked found => cases checked
    | lengths => cases h
    | predicates => cases h
  | true =>
    obtain ⟨θ, rfl⟩ := hρ rfl
    exact h.not_unified hb

/-- **Unification succeeds exactly when there is a solution that is admitted.** -/
theorem exists_unifier_iff :
    (∃ b, unify check left right = .ok b) ↔
      left.length = right.length ∧ ∃ ρ, Admits check ρ ∧ Equalizes ρ (left.zip right) := by
  constructor
  · rintro ⟨b, hb⟩
    obtain ⟨hlength, s, hm, hp, -⟩ := unify_eq_ok_iff.mp hb
    obtain ⟨ρ, hρ, hs⟩ := exists_satisfies hm
    exact ⟨hlength, ρ, hρ, (equalizes_iff_satisfies hm hp).mpr hs⟩
  · rintro ⟨hlength, ρ, hρ, hpairs⟩
    rcases h : unify check left right with c | b
    · obtain ⟨s, hm, hstuck⟩ := stuck_of_unify_eq_error hlength h
      have hs := noAliasCycle_of_moves hm Substitution.acyclic_empty.noAliasCycle
      exact absurd (solved_of_moves hm hpairs) (hstuck.not_admitted hs hρ)
    · exact ⟨b, rfl⟩

/-! ### Order and sides -/

/-- The same pairs in another order, some of them with their sides exchanged. -/
def Reordered (ps qs : List (Term × Term)) : Prop :=
  ∃ rs, ps.Perm rs ∧ List.Forall₂ (fun p q => q = p ∨ q = p.swap) rs qs

/-- What does not depend on the side holds of all pairs, whatever their order. -/
theorem Reordered.forall_iff {ps qs : List (Term × Term)} (h : Reordered ps qs)
    {P : Term × Term → Prop} (hP : ∀ p, P p.swap ↔ P p) : (∀ p ∈ ps, P p) ↔ ∀ q ∈ qs, P q := by
  obtain ⟨rs, hperm, hsides⟩ := h
  have hrs : (∀ p ∈ ps, P p) ↔ ∀ r ∈ rs, P r := forall_congr' fun p => by rw [hperm.mem_iff]
  rw [hrs]
  clear hperm hrs
  induction hsides with
  | nil => simp
  | cons hside _ ih =>
    rw [List.forall_mem_cons, List.forall_mem_cons]
    rcases hside with rfl | rfl
    · exact and_congr_right' ih
    · exact and_congr (hP _).symm ih

theorem Reordered.equalizes_iff {ps qs : List (Term × Term)} (h : Reordered ps qs) :
    Equalizes ρ ps ↔ Equalizes ρ qs := h.forall_iff fun _ => eq_comm

theorem reordered_swap (left right : List Term) :
    Reordered (left.zip right) (right.zip left) := by
  refine ⟨_, .refl _, ?_⟩
  rw [← List.zip_swap left right, List.forall₂_map_right_iff, List.forall₂_same]
  exact fun _ _ => .inr rfl

/-- Neither the order of the pairs nor their sides matter for success. -/
theorem exists_unifier_iff_of_reordered {left' right' : List Term}
    (hlength : left.length = right.length ↔ left'.length = right'.length)
    (h : Reordered (left.zip right) (left'.zip right')) :
    (∃ b, unify check left right = .ok b) ↔ ∃ b, unify check left' right' = .ok b := by
  rw [exists_unifier_iff, exists_unifier_iff, hlength]
  simp only [h.equalizes_iff]

theorem exists_unifier_comm :
    (∃ b, unify check left right = .ok b) ↔ ∃ b, unify check right left = .ok b :=
  exists_unifier_iff_of_reordered eq_comm (reordered_swap left right)

end Unification

namespace Literal

variable {check : Bool} {a b : Literal} {s : Substitution}

theorem unify_eq_ok_iff :
    a.unify check b = .ok s ↔
      a.name = b.name ∧ a.arity = b.arity ∧ TreeRewriting.unify check a.args b.args = .ok s := by
  rw [unify]
  split
  · rename_i h
    exact ⟨fun hs => ⟨h.1, h.2, hs⟩, fun hs => hs.2.2⟩
  · rename_i h
    exact ⟨fun hs => (by cases hs), fun hs => absurd ⟨hs.1, hs.2.1⟩ h⟩

theorem canUnify_iff :
    a.canUnify check b = true ↔ a.complementary b = true ∧ ∃ s, a.unify check b = .ok s := by
  rw [canUnify, Bool.and_eq_true]
  rcases a.unify check b with c | s
  · simp [Except.toOption]
  · simp [Except.toOption]

theorem complementary_comm (a b : Literal) : a.complementary b = b.complementary a := by
  rw [complementary, complementary, bne_comm]

/-- **Which of two literals comes first does not matter for whether they unify.** -/
theorem canUnify_comm (check : Bool) (a b : Literal) :
    a.canUnify check b = b.canUnify check a := by
  have hswap : ∀ {a b : Literal}, a.canUnify check b = true → b.canUnify check a = true := by
    intro a b h
    obtain ⟨hcomplementary, s, hs⟩ := canUnify_iff.mp h
    obtain ⟨hname, harity, hargs⟩ := unify_eq_ok_iff.mp hs
    obtain ⟨s', hs'⟩ := Unification.exists_unifier_comm.mp ⟨s, hargs⟩
    rw [complementary_comm] at hcomplementary
    exact canUnify_iff.mpr
      ⟨hcomplementary, s', unify_eq_ok_iff.mpr ⟨hname.symm, harity.symm, hs'⟩⟩
  exact Bool.eq_iff_iff.mpr ⟨hswap, hswap⟩

end Literal

end TreeRewriting

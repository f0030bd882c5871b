/-
TreeRewriting/Proofs/Unification/Ground.lean

Unification without variables.

Terms without variables are what they are under every assignment.  So they unify
when they are equal, with either setting of the occurs check, and nothing is
bound.  Two literals without variables can be resolved when one is the negation
of the other.
-/
import TreeRewriting.Proofs.Substitution.Idempotence
import TreeRewriting.Proofs.Unification.Solvability

namespace TreeRewriting

/-- A term stays what it is when variables are put for themselves. -/
theorem Term.subst_var (t : Term) : t.subst .var = t := by
  induction t with
  | var v => rfl
  | app f ts ih => rw [subst_app, List.map_congr_left ih, List.map_id']

namespace Substitution

@[simp] theorem apply_empty (t : Term) : empty.apply t = t :=
  apply_of_unbound fun _ _ => rfl

@[simp] theorem applyLiteral_empty (l : Literal) : empty.applyLiteral l = l := by
  rw [applyLiteral, applyList_eq_map, List.map_congr_left fun t _ => apply_empty t, List.map_id']

theorem resolve_empty : empty.resolve = empty := rfl

end Substitution

namespace Unification

variable {check : Bool} {left right : List Term} {s : Substitution}

/-- Terms without variables unify when they are equal, and nothing is bound. -/
theorem unify_eq_ok_iff_of_ground (hleft : Term.varsList left = [])
    (hright : Term.varsList right = []) :
    unify check left right = .ok s ↔ left = right ∧ s = .empty := by
  have hunique : ∀ {s}, unify check left right = .ok s → left = right ∧ s = .empty := by
    intro s h
    obtain ⟨hlength, state, hm, hp, rfl⟩ := unify_eq_ok_iff.mp h
    -- only variables of the terms are ever bound
    have hbindings : state.bindings = .empty := by
      apply Substitution.ext_get?
      intro v
      rcases hv : state.bindings.get? v with - | t
      · rfl
      · obtain ⟨u, hu, hvu⟩ := Term.mem_varsList.mp ((over_of_moves hm).bound v t hv).1
        rcases List.mem_append.mp hu with hu | hu
        · exact absurd (Term.mem_varsList.mpr ⟨u, hu, hvu⟩) (by simp [hleft])
        · exact absurd (Term.mem_varsList.mpr ⟨u, hu, hvu⟩) (by simp [hright])
    have hpairs : Unifies .var (left.zip right) := by
      rw [unifies_iff_respects hm hp, hbindings]
      intro v t hv
      cases hv
    refine ⟨List.ext_getElem hlength fun i hi hi' => ?_, by rw [hbindings, Substitution.resolve_empty]⟩
    have hmem : (left[i], right[i]) ∈ left.zip right :=
      List.mem_of_getElem? (List.getElem?_zip_eq_some.mpr
        ⟨List.getElem?_eq_getElem hi, List.getElem?_eq_getElem hi'⟩)
    have heq := hpairs _ hmem
    rwa [Term.subst_var, Term.subst_var] at heq
  constructor
  · exact hunique
  · rintro ⟨rfl, rfl⟩
    obtain ⟨s, hs⟩ : ∃ s, unify check left left = .ok s := by
      refine exists_unifier_iff.mpr ⟨rfl, _, fun _ => ⟨.var, rfl⟩, ?_⟩
      rintro ⟨a, b⟩ hp
      obtain ⟨i, hi⟩ := List.mem_iff_getElem?.mp hp
      obtain ⟨ha, hb⟩ := List.getElem?_zip_eq_some.mp hi
      rw [Option.some.inj (ha.symm.trans hb)]
    rw [hs, (hunique hs).2]

end Unification

namespace Literal

variable {check : Bool} {a b : Literal} {s : Substitution}

/-- A literal without variables. -/
def Ground (l : Literal) : Prop := Term.varsList l.args = []

instance : DecidablePred Ground := fun l => inferInstanceAs (Decidable (Term.varsList l.args = []))

theorem unify_eq_ok_iff_of_ground (ha : a.Ground) (hb : b.Ground) :
    a.unify check b = .ok s ↔ a.name = b.name ∧ a.args = b.args ∧ s = .empty := by
  rw [unify_eq_ok_iff, Unification.unify_eq_ok_iff_of_ground ha hb]
  constructor
  · rintro ⟨hname, -, hargs⟩
    exact ⟨hname, hargs⟩
  · rintro ⟨hname, hargs, hs⟩
    exact ⟨hname, congrArg List.length hargs, hargs, hs⟩

/-- Literals without variables can be resolved when one is the negation of the other. -/
theorem canUnify_iff_of_ground (ha : a.Ground) (hb : b.Ground) :
    a.canUnify check b = true ↔ b = a.negate := by
  simp only [canUnify_iff, unify_eq_ok_iff_of_ground ha hb]
  constructor
  · rintro ⟨hcomplementary, -, hname, hargs, -⟩
    have hnegated : b.negated = !a.negated := Bool.eq_not.mpr (bne_iff_ne.mp hcomplementary).symm
    obtain ⟨name, args, negated⟩ := b
    subst hname hargs hnegated
    rfl
  · rintro rfl
    exact ⟨by simp [complementary, negate], .empty, rfl, rfl, rfl⟩

end Literal

end TreeRewriting

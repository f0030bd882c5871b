/-
TreeRewriting/Proofs/Unification/Uniqueness.lean

Most general unifiers are unique up to renaming.

Design.  Two most general unifiers of the same lists absorb each other: either
one does not tell a term from what the other makes of it (`absorbs`).  So a
variable that the one leaves alone is taken by the other to a variable, which
the first one takes back (`MostGeneralUnifier.exists_partner`).  Both leave
equally many of the variables of the lists alone, and so they bind equally many;
and the pairing of the variables left alone extends to a permutation of all
variables of the lists, which takes what the one makes of any term to what the
other makes of it (`MostGeneralUnifier.exists_renaming`).

To be a most general unifier does not depend on the order of the pairs or on
their sides, so this compares the answers of two runs on reordered pairs.

Main result: `unify_of_reordered`.
-/
import Mathlib.Algebra.Group.End
import Mathlib.Data.Fintype.Sum
import TreeRewriting.Proofs.Substitution.Idempotence
import TreeRewriting.Proofs.Term.Renaming
import TreeRewriting.Proofs.Unification.Solvability

namespace TreeRewriting

/-! ### Counting bindings -/

namespace Substitution

variable {s : Substitution} {v : Nat} {t : Term}

theorem mem_keys_iff : v ∈ s.keys ↔ ∃ t, s.get? v = some t := by
  simp only [keys, List.mem_map, Prod.exists, exists_and_right, exists_eq_right, get?_eq_some_iff]

theorem nodup_keys (s : Substitution) : s.keys.Nodup :=
  List.pairwise_map.mpr (s.ascending.imp Nat.ne_of_lt)

/-- The variables of a finite set that are not bound. -/
def unboundIn (s : Substitution) (vs : Finset Nat) : Finset Nat :=
  vs.filter fun v => s.get? v = none

@[simp] theorem mem_unboundIn {vs : Finset Nat} :
    v ∈ s.unboundIn vs ↔ v ∈ vs ∧ s.get? v = none := Finset.mem_filter

/-- If only variables of the set are bound, the others of them are left. -/
theorem size_add_card_unboundIn {vs : Finset Nat} (h : ∀ v t, s.get? v = some t → v ∈ vs) :
    s.size + (s.unboundIn vs).card = vs.card := by
  have hbound : vs.filter (fun v => ¬ s.get? v = none) = s.keys.toFinset := by
    ext v
    rw [Finset.mem_filter, List.mem_toFinset, mem_keys_iff, ← Option.ne_none_iff_exists']
    constructor
    · exact fun hv => hv.2
    · intro hv
      obtain ⟨t, ht⟩ := Option.ne_none_iff_exists'.mp hv
      exact ⟨h v t ht, hv⟩
  have hcard : (vs.filter fun v => ¬ s.get? v = none).card = s.size := by
    rw [hbound, List.toFinset_card_of_nodup s.nodup_keys, keys, List.length_map, size]
  rw [← hcard, Nat.add_comm]
  exact Finset.card_filter_add_card_filter_not _

/-! ### Application -/

/-- Putting for every variable what the substitution makes of it applies the substitution. -/
theorem subst_apply_var (s : Substitution) (t : Term) :
    t.subst (fun v => s.apply (.var v)) = s.apply t := by
  induction t with
  | var v => rfl
  | app f ts ih =>
    rw [Term.subst_app, apply, applyList_eq_map]
    congr 1
    exact List.map_congr_left ih

/-- What an idempotent substitution makes of a term mentions no bound variable. -/
theorem unbound_of_mem_vars_apply (hs : s.isIdempotent = true) (h : v ∈ (s.apply t).vars) :
    s.get? v = none := by
  rw [← resolve_of_isIdempotent hs, apply_resolve] at h
  exact unbound_of_mem_vars_expand (acyclic_of_isIdempotent hs) h

end Substitution

/-- Substitutions that agree on the variables of a term make the same of it. -/
theorem Term.subst_congr {θ η : Nat → Term} {t : Term} (h : ∀ v ∈ t.vars, θ v = η v) :
    t.subst θ = t.subst η := by
  induction t with
  | var v => exact h v (Term.mem_vars_var.mpr rfl)
  | app f ts ih =>
    rw [Term.subst_app, Term.subst_app]
    congr 1
    apply List.map_congr_left
    intro t ht
    exact ih t ht fun v hv => h v (Term.mem_vars_app.mpr ⟨t, ht, hv⟩)

/-- An injection from part of a finite set into the set is part of a permutation that moves
nothing outside the set. -/
theorem exists_perm_extending {vs part : Finset Nat} {f : Nat → Nat} (hpart : part ⊆ vs)
    (hf : ∀ v ∈ part, f v ∈ vs) (hinj : Set.InjOn f part) :
    ∃ r : Equiv.Perm Nat, (∀ v ∈ part, r v = f v) ∧ ∀ v ∉ vs, r v = v := by
  have himage : (part.subtype (· ∈ vs)).image (fun v : vs => f v) ⊆ vs := by
    intro w hw
    obtain ⟨v, hv, rfl⟩ := Finset.mem_image.mp hw
    exact hf v (Finset.mem_subtype.mp hv)
  have hinj' : Set.InjOn (fun v : vs => f v) (part.subtype (· ∈ vs)) := by
    intro v hv w hw heq
    exact Subtype.ext (hinj (Finset.mem_subtype.mp hv) (Finset.mem_subtype.mp hw) heq)
  obtain ⟨g, hg⟩ := Finset.exists_equiv_extend_of_card_eq (Fintype.card_coe vs) himage hinj'
  refine ⟨Equiv.Perm.ofSubtype g, fun v hv => ?_, fun v hv => ?_⟩
  · rw [Equiv.Perm.ofSubtype_apply_of_mem g (hpart hv)]
    exact hg ⟨v, hpart hv⟩ (Finset.mem_subtype.mpr hv)
  · exact Equiv.Perm.ofSubtype_apply_of_not_mem g hv

namespace Unification

/-! ### Two most general unifiers -/

namespace MostGeneralUnifier

variable {s s' : Substitution} {left right : List Term} {v : Nat}

theorem unifies (h : MostGeneralUnifier s left right) :
    Unifies (fun v => s.apply (.var v)) (left.zip right) := by
  intro p hp
  rw [Substitution.subst_apply_var, Substitution.subst_apply_var]
  exact h.equalizes p hp

/-- The one does not tell a term from what the other makes of it. -/
theorem absorbs (h : MostGeneralUnifier s left right) (h' : MostGeneralUnifier s' left right)
    (t : Term) : s'.apply (s.apply t) = s'.apply t := by
  have hgeneral := h.general _ h'.unifies t
  rwa [Substitution.subst_apply_var, Substitution.subst_apply_var] at hgeneral

/-- A variable that the one leaves alone is taken by the other to a variable, which the first
one takes back. -/
theorem exists_partner (h : MostGeneralUnifier s left right)
    (h' : MostGeneralUnifier s' left right) (hv : s.get? v = none) :
    ∃ w, s'.apply (.var v) = .var w ∧ s.apply (.var w) = .var v := by
  have hback : s.apply (s'.apply (.var v)) = .var v := by
    rw [absorbs h' h, Substitution.apply, hv]
    rfl
  rcases hw : s'.apply (.var v) with w | ⟨f, ts⟩
  · exact ⟨w, rfl, hw ▸ hback⟩
  · -- an application stays one
    rw [hw, Substitution.apply] at hback
    cases hback

/-- The variables of the lists that are not bound. -/
def unbound (s : Substitution) (left right : List Term) : Finset Nat :=
  s.unboundIn (Term.varsList (left ++ right)).toFinset

/-- The partners are again variables of the lists that are left alone. -/
theorem partner_mem_unbound (h' : MostGeneralUnifier s' left right) {w : Nat}
    (hv : v ∈ unbound s left right) (hw : s'.apply (.var v) = .var w) :
    w ∈ unbound s' left right := by
  rw [unbound, Substitution.mem_unboundIn, List.mem_toFinset] at hv ⊢
  have hmem : w ∈ (s'.apply (.var v)).vars := by simp [hw]
  refine ⟨?_, Substitution.unbound_of_mem_vars_apply h'.idempotent hmem⟩
  rw [Substitution.apply] at hw
  rcases ht : s'.get? v with - | t
  · rw [ht] at hw
    obtain rfl := Term.var.inj hw
    exact hv.1
  · obtain rfl : t = .var w := by simpa [ht] using hw
    exact h'.relevant v _ ht w (.inr (by simp))

/-- The partners of different variables are different. -/
theorem exists_pairing (h : MostGeneralUnifier s left right)
    (h' : MostGeneralUnifier s' left right) :
    ∃ f : Nat → Nat, (∀ v ∈ unbound s left right, s'.apply (.var v) = .var (f v)) ∧
      Set.MapsTo f (unbound s left right) (unbound s' left right) ∧
      Set.InjOn f (unbound s left right) := by
  have hpartner : ∀ v ∈ unbound s left right,
      ∃ w, s'.apply (.var v) = .var w ∧ s.apply (.var w) = .var v := fun v hv =>
    exists_partner h h' (Substitution.mem_unboundIn.mp hv).2
  choose! f hf hback using hpartner
  refine ⟨f, hf, fun v hv => partner_mem_unbound h' hv (hf v hv), fun v hv w hw heq => ?_⟩
  rw [← Term.var.injEq, ← hback v hv, heq, hback w hw]

theorem card_unbound_eq (h : MostGeneralUnifier s left right)
    (h' : MostGeneralUnifier s' left right) :
    (unbound s left right).card = (unbound s' left right).card := by
  obtain ⟨f, -, hmaps, hinj⟩ := exists_pairing h h'
  obtain ⟨f', -, hmaps', hinj'⟩ := exists_pairing h' h
  exact Nat.le_antisymm (Finset.card_le_card_of_injOn f hmaps hinj)
    (Finset.card_le_card_of_injOn f' hmaps' hinj')

/-- What is not bound and the bindings make up the variables of the lists. -/
theorem size_add_card_unbound (h : MostGeneralUnifier s left right) :
    s.size + (unbound s left right).card = (Term.varsList (left ++ right)).toFinset.card :=
  Substitution.size_add_card_unboundIn fun v t hv =>
    List.mem_toFinset.mpr (h.relevant v t hv v (.inl rfl))

/-- **Most general unifiers are unique up to renaming**: of the same lists any two bind
equally many variables, and one permutation of the variables of the lists takes what the one
makes of a term to what the other makes of it. -/
theorem exists_renaming (h : MostGeneralUnifier s left right)
    (h' : MostGeneralUnifier s' left right) :
    s.size = s'.size ∧ ∃ r : Equiv.Perm Nat, (∀ v ∉ Term.varsList (left ++ right), r v = v) ∧
      ∀ t, s'.apply t = (s.apply t).rename r := by
  constructor
  · have hcard := card_unbound_eq h h'
    have hs := size_add_card_unbound h
    have hs' := size_add_card_unbound h'
    omega
  obtain ⟨f, hf, hmaps, hinj⟩ := exists_pairing h h'
  obtain ⟨r, hr, hfix⟩ := exists_perm_extending (Finset.filter_subset _ _)
    (fun v hv => (Substitution.mem_unboundIn.mp (hmaps hv)).1) hinj
  simp only [List.mem_toFinset] at hfix
  refine ⟨r, hfix, fun t => ?_⟩
  -- the second one only sees variables that the first one leaves alone
  rw [← absorbs h h' t, ← Substitution.subst_apply_var, Term.rename]
  apply Term.subst_congr
  intro v hv
  have hnone := Substitution.unbound_of_mem_vars_apply h.idempotent hv
  by_cases hmem : v ∈ Term.varsList (left ++ right)
  · have hv : v ∈ unbound s left right :=
      Substitution.mem_unboundIn.mpr ⟨List.mem_toFinset.mpr hmem, hnone⟩
    rw [hf v hv, hr v hv]
  · -- a variable of no pair is bound by neither
    rw [hfix v hmem, Substitution.apply]
    rcases ht : s'.get? v with - | u
    · rfl
    · exact absurd (h'.relevant v u ht v (.inl rfl)) hmem

end MostGeneralUnifier

/-! ### Reordered pairs -/

variable {ps qs : List (Term × Term)} {s s' : Substitution}

theorem mem_vars_pairs {v : Nat} {ps : List (Term × Term)} :
    v ∈ Term.varsList (ps.map Prod.fst ++ ps.map Prod.snd) ↔
      ∃ p ∈ ps, v ∈ p.1.vars ∨ v ∈ p.2.vars := by
  simp only [Term.mem_varsList, List.mem_append, List.mem_map, or_and_right, exists_or, and_or_left,
    exists_exists_and_eq_and]

theorem zip_map_fst_snd (ps : List (Term × Term)) :
    (ps.map Prod.fst).zip (ps.map Prod.snd) = ps := by
  simpa using List.zip_unzip ps

theorem Reordered.mem_vars_iff (h : Reordered ps qs) {v : Nat} :
    v ∈ Term.varsList (ps.map Prod.fst ++ ps.map Prod.snd) ↔
      v ∈ Term.varsList (qs.map Prod.fst ++ qs.map Prod.snd) := by
  have hnot := h.forall_iff (P := fun p => ¬ (v ∈ p.1.vars ∨ v ∈ p.2.vars)) fun _ =>
    not_congr or_comm
  rw [mem_vars_pairs, mem_vars_pairs, ← not_iff_not]
  simpa only [not_exists, not_and] using hnot

theorem Reordered.unifies_iff (h : Reordered ps qs) {θ : Nat → Term} :
    Unifies θ ps ↔ Unifies θ qs := h.forall_iff fun _ => eq_comm

/-- What unification with the occurs check returns is a most general unifier. -/
theorem MostGeneralUnifier.of_unify {left right : List Term} (h : unify true left right = .ok s) :
    MostGeneralUnifier s left right := by
  obtain ⟨-, state, hmoves, hpending, rfl⟩ := unify_eq_ok_iff.mp h
  exact mostGeneralUnifier_resolve hmoves hpending

/-- A most general unifier of pairs is one of the pairs in any order, with any sides. -/
theorem MostGeneralUnifier.of_reordered (hpairs : Reordered ps qs)
    (h : MostGeneralUnifier s (ps.map Prod.fst) (ps.map Prod.snd)) :
    MostGeneralUnifier s (qs.map Prod.fst) (qs.map Prod.snd) where
  equalizes := by
    have heq := h.equalizes
    rw [zip_map_fst_snd] at heq ⊢
    exact (hpairs.forall_iff (P := fun p => s.apply p.1 = s.apply p.2) fun _ => eq_comm).mp heq
  idempotent := h.idempotent
  relevant v t hv w hw := hpairs.mem_vars_iff.mp (h.relevant v t hv w hw)
  general θ hθ := by
    rw [zip_map_fst_snd, ← hpairs.unifies_iff] at hθ
    exact h.general θ (by rwa [zip_map_fst_snd])

/-- **Neither the order of the pairs nor their sides make a difference but for the names of
variables.**  Pairs of terms that have been reordered, with some of their sides exchanged,
unify exactly if they did before.  With the occurs check the two answers bind equally many
variables, and one permutation of the variables of the pairs takes what the one makes of a
term to what the other makes of it. -/
theorem unify_of_reordered (hpairs : Reordered ps qs) :
    (∀ check, (∃ s, unify check (ps.map Prod.fst) (ps.map Prod.snd) = .ok s) ↔
        ∃ s, unify check (qs.map Prod.fst) (qs.map Prod.snd) = .ok s) ∧
      ∀ s s', unify true (ps.map Prod.fst) (ps.map Prod.snd) = .ok s →
        unify true (qs.map Prod.fst) (qs.map Prod.snd) = .ok s' →
        s.size = s'.size ∧ ∃ r : Equiv.Perm Nat,
          (∀ v ∉ Term.varsList (ps.map Prod.fst ++ ps.map Prod.snd), r v = v) ∧
            ∀ t, s'.apply t = (s.apply t).rename r := by
  constructor
  · intro check
    exact exists_unifier_iff_of_reordered (by simp)
      (by rwa [zip_map_fst_snd, zip_map_fst_snd])
  · intro s s' hs hs'
    -- the first answer unifies the reordered pairs as well
    have h := (MostGeneralUnifier.of_unify hs).of_reordered hpairs
    have hmoved := h.exists_renaming (.of_unify hs')
    simpa only [hpairs.mem_vars_iff] using hmoved

/-- X0 = X1 and X2 = f(X0), and the same equations the other way round in the other order. -/
theorem unify_of_reordered_chain :
    Reordered [(.var 0, .var 1), (.var 2, .app "f" [.var 0])]
        [(.app "f" [.var 0], .var 2), (.var 1, .var 0)] ∧
      ∃ s s', unify true [.var 0, .var 2] [.var 1, .app "f" [.var 0]] = .ok s ∧
        unify true [.app "f" [.var 0], .var 1] [.var 2, .var 0] = .ok s' ∧
        s.size = s'.size ∧ ∃ r : Equiv.Perm Nat, (∀ v ∉ [0, 2, 1, 0], r v = v) ∧
          ∀ t, s'.apply t = (s.apply t).rename r := by
  have hpairs : Reordered [(.var 0, .var 1), (.var 2, .app "f" [.var 0])]
      [(.app "f" [.var 0], .var 2), (.var 1, .var 0)] :=
    ⟨_, .swap _ _ _, .cons (.inr rfl) (.cons (.inr rfl) .nil)⟩
  obtain ⟨hsuccess, hrenaming⟩ := unify_of_reordered hpairs
  have hunifies : Unifies (fun v => if v = 2 then .app "f" [.var 1] else .var 1)
      [(.var 0, .var 1), (.var 2, .app "f" [.var 0])] := by
    simp [Unifies, Term.subst, Term.substList]
  obtain ⟨s, hs⟩ : ∃ s, unify true [.var 0, .var 2] [.var 1, .app "f" [.var 0]] = .ok s :=
    exists_unifier_iff.mpr ⟨rfl, _, fun _ => ⟨_, rfl⟩, equalizes_tree_iff.mpr hunifies⟩
  obtain ⟨s', hs'⟩ := (hsuccess true).mp ⟨s, hs⟩
  exact ⟨hpairs, s, s', hs, hs', hrenaming s s' hs hs'⟩

end Unification

end TreeRewriting

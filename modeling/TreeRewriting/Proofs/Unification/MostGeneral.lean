/-
TreeRewriting/Proofs/Unification/MostGeneral.lean

With the occurs check: most general unifiers.

Design.  A unifier is an assignment of terms to variables under which two lists
become the same.  Terms are trees, so the unifiers of two lists are those
solutions that consist of terms, and what is known of solutions carries over:
with nothing pending the unifiers are the assignments that respect the bindings
(`unifies_iff_respects`).

Two things are particular to terms.  An assignment that respects the bindings
does not tell a term from its expansion (`Respects.subst_expand`), and expansion
along acyclic bindings is itself such an assignment (`respects_expand`).  So the
resolved bindings are a unifier, and every unifier factors through it.  And an
application is larger than what stands for a variable in it, so where the
occurs check fails there is no unifier (`State.Stuck.not_unified`).

Main result: `unify_checked_mostGeneral`.
-/
import TreeRewriting.Proofs.Unification.OccursCheck
import TreeRewriting.Proofs.Unification.Solutions

namespace TreeRewriting.Unification

open Relation

/-! ### Unifiers as solutions -/

/-- With terms put for variables, both terms of every pair become the same. -/
def Unifies (θ : Nat → Term) (pairs : List (Term × Term)) : Prop :=
  ∀ p ∈ pairs, p.1.subst θ = p.2.subst θ

/-- For every bound variable stands what its term becomes. -/
def Respects (θ : Nat → Term) (b : Substitution) : Prop :=
  ∀ v t, b.get? v = some t → θ v = t.subst θ

variable {θ : Nat → Term}

/-- Two terms denote the same tree exactly when they become the same term. -/
theorem denote_tree_iff {a b : Term} :
    a.denote (fun v => (θ v).tree) = b.denote (fun v => (θ v).tree)
      ↔ a.subst θ = b.subst θ := by
  rw [← Term.tree_subst, ← Term.tree_subst]
  constructor
  · exact Term.tree_injective
  · intro h
    rw [h]

theorem equalizes_tree_iff {pairs : List (Term × Term)} :
    Equalizes (fun v => (θ v).tree) pairs ↔ Unifies θ pairs :=
  forall₂_congr fun _ _ => denote_tree_iff

theorem satisfies_tree_iff {b : Substitution} :
    Satisfies (fun v => (θ v).tree) b ↔ Respects θ b :=
  forall₃_congr fun v _ _ => denote_tree_iff (a := .var v)

/-- With nothing pending the unifiers are the assignments that respect the bindings. -/
theorem unifies_iff_respects {check : Bool} {left right : List Term} {s : State}
    (h : Moves check (start left right) s) (hp : s.pending = []) :
    Unifies θ (left.zip right) ↔ Respects θ s.bindings := by
  rw [← equalizes_tree_iff, ← satisfies_tree_iff]
  exact equalizes_iff_satisfies h hp

/-! ### Unifiers and expansion -/

theorem Respects.of_le {b b' : Substitution} (h : Respects θ b') (hb : b ≤ b') : Respects θ b :=
  fun v t hv => h v t (hb v t hv)

/-- An assignment that respects bindings does not tell a term from its expansion. -/
theorem Respects.subst_expand {b : Substitution} (h : Respects θ b) (t : Term) :
    (b.expand t).subst θ = t.subst θ := by
  fun_induction Substitution.expand b t with
  | case1 b v t hv ih =>
    rw [ih (h.of_le (b.erase_le v))]
    exact (h v t hv).symm
  | case2 => rfl
  | case3 b f ts ih =>
    rw [Term.subst_app, Term.subst_app, List.map_map]
    congr 1
    apply List.map_congr_left
    intro t ht
    exact ih t ht h

/-- Putting for every variable its expansion expands a term. -/
theorem subst_expand_var (b : Substitution) (t : Term) :
    t.subst (fun v => b.expand (.var v)) = b.expand t := by
  induction t with
  | var v => rfl
  | app f ts ih =>
    rw [Term.subst_app, b.expand_app]
    congr 1
    exact List.map_congr_left ih

/-- Without a cycle expansion respects the bindings. -/
theorem respects_expand {b : Substitution} (hb : b.Acyclic) :
    Respects (fun v => b.expand (.var v)) b := by
  intro v t hv
  show b.expand (.var v) = _
  rw [subst_expand_var, Substitution.expand_var hb hv]

/-! ### Where there is no unifier -/

/-- Where a step fails there is no unifier. -/
theorem State.Stuck.not_unified {check : Bool} {s : State} {c : Clash} (h : Stuck check s c)
    (hb : s.bindings.NoAliasCycle) : ¬ s.Solved fun v => (θ v).tree := by
  intro hs
  cases c with
  | symbols f g => exact h.not_solved hs
  | occurs v t =>
    cases h with
    | occurs front new assigns checked found =>
      have hv : θ v = t.subst θ :=
        denote_tree_iff (a := .var v).mp (assigns.denote_eq_iff.mp (hs.front front).1)
      have hmem := (Substitution.mem_vars_expand_iff_reaches _ v t).mpr found
      have hexpand := (satisfies_tree_iff.mp hs.bound).subst_expand t
      cases t with
      | var w =>
        -- the chase has ended at `w`, so `w` would have to be `v`
        have hw := (front.unbound assigns hb).2 w rfl
        rw [Substitution.expand_var_of_none hw] at hmem
        exact assigns.ne_var (fun e => new (.inl e)) (Term.mem_vars_var.mp hmem).symm
      | app f ts =>
        rw [Substitution.expand_app] at hmem hexpand
        have hlt := Term.size_lt_size_subst θ hmem
        rw [hexpand, hv] at hlt
        exact absurd hlt (Nat.lt_irrefl _)
  | lengths => cases h
  | predicates => cases h

/-! ### The variables of a run -/

/-- Everything in a state is about the given variables. -/
structure State.Over (vs : List Nat) (s : State) : Prop where
  pending : ∀ p ∈ s.pending, p.1.vars ⊆ vs ∧ p.2.vars ⊆ vs
  bound : ∀ v t, s.bindings.get? v = some t → v ∈ vs ∧ t.vars ⊆ vs

namespace State

variable {vs : List Nat} {check : Bool} {s s' : State}

theorem Over.chase (h : s.Over vs) {t : Term} (ht : t.vars ⊆ vs) :
    (s.bindings.chase t).vars ⊆ vs := by
  rcases s.bindings.chase_eq_or_bound t with e | ⟨v, hv⟩
  · rw [e]
    exact ht
  · exact (h.bound v _ hv).2

theorem Over.front (h : s.Over vs) {a b a' b' : Term} {rest : List (Term × Term)}
    (front : s.Front a b a' b' rest) :
    (a'.vars ⊆ vs ∧ b'.vars ⊆ vs) ∧ ∀ p ∈ rest, p.1.vars ⊆ vs ∧ p.2.vars ⊆ vs := by
  obtain ⟨hp, rfl, rfl⟩ := front
  have hall := h.pending
  rw [hp] at hall
  obtain ⟨ha, hb⟩ := hall (a, b) List.mem_cons_self
  exact ⟨⟨h.chase ha, h.chase hb⟩, fun p hmem => hall p (List.mem_cons_of_mem _ hmem)⟩

/-- A move brings in no variables. -/
theorem Move.over (h : Move check s s') (hs : s.Over vs) : s'.Over vs := by
  cases h with
  | drop front known => exact ⟨(hs.front front).2, hs.bound⟩
  | bind front new assigns free =>
    obtain ⟨⟨ha, hb⟩, hrest⟩ := hs.front front
    refine ⟨hrest, ?_⟩
    intro w u hw
    rcases Substitution.get?_insert_cases hw with ⟨rfl, rfl⟩ | hw
    · cases assigns with
      | left v t => exact ⟨ha (by simp), hb⟩
      | right f ts v => exact ⟨hb (by simp), ha⟩
    · exact hs.bound w u hw
  | @split _ _ f ss ts _ front new arity =>
    obtain ⟨⟨ha, hb⟩, hrest⟩ := hs.front front
    refine ⟨?_, hs.bound⟩
    intro p hp
    rcases List.mem_append.mp hp with hp | hp
    · obtain ⟨h₁, h₂⟩ := List.of_mem_zip (a := p.1) (b := p.2) hp
      exact ⟨fun v hv => ha (Term.mem_vars_app.mpr ⟨p.1, h₁, hv⟩),
        fun v hv => hb (Term.mem_vars_app.mpr ⟨p.2, h₂, hv⟩)⟩
    · exact hrest p hp

/-- The bindings lead to no other variables. -/
theorem Over.leads (h : s.Over vs) {v w : Nat} (hv : v ∈ vs)
    (hvw : ReflTransGen s.bindings.Leads v w) : w ∈ vs := by
  induction hvw with
  | refl => exact hv
  | tail _ hstep _ =>
    obtain ⟨t, ht, hw⟩ := hstep
    exact (h.bound _ t ht).2 hw

end State

theorem over_of_moves {check : Bool} {left right : List Term} {s : State}
    (h : Moves check (start left right) s) : s.Over (Term.varsList (left ++ right)) := by
  induction h with
  | refl =>
    refine ⟨?_, ?_⟩
    · intro p hp
      obtain ⟨h₁, h₂⟩ := List.of_mem_zip (a := p.1) (b := p.2) hp
      exact ⟨fun v hv => Term.mem_varsList.mpr ⟨p.1, List.mem_append_left _ h₁, hv⟩,
        fun v hv => Term.mem_varsList.mpr ⟨p.2, List.mem_append_right _ h₂, hv⟩⟩
    · intro v t hv
      cases hv
  | tail _ hmove ih => exact hmove.over ih

/-! ### Most general unifiers -/

/-- A substitution that is a most general unifier of two lists: it makes them equal in one
pass, it is about their variables only, and every unifier of theirs factors through it. -/
structure MostGeneralUnifier (s : Substitution) (left right : List Term) : Prop where
  equalizes : ∀ p ∈ left.zip right, s.apply p.1 = s.apply p.2
  idempotent : s.isIdempotent = true
  relevant : ∀ v t, s.get? v = some t →
    ∀ w, w = v ∨ w ∈ t.vars → w ∈ Term.varsList (left ++ right)
  general : ∀ θ, Unifies θ (left.zip right) → ∀ t, (s.apply t).subst θ = t.subst θ

/-- The bindings in which a run with the check ends resolve to a most general unifier. -/
theorem mostGeneralUnifier_resolve {left right : List Term} {s : State}
    (h : Moves true (start left right) s) (hp : s.pending = []) :
    MostGeneralUnifier s.bindings.resolve left right := by
  have hb := acyclic_of_moves h Substitution.acyclic_empty
  have hover := over_of_moves h
  refine ⟨?_, Substitution.isIdempotent_resolve_iff.mpr hb, ?_, ?_⟩
  · intro p hmem
    -- expansion respects the bindings, and so it is a unifier
    have hunifies := (unifies_iff_respects h hp).mpr (respects_expand hb) p hmem
    rw [subst_expand_var, subst_expand_var] at hunifies
    rw [Substitution.apply_resolve, Substitution.apply_resolve, hunifies]
  · intro v u hv w hw
    obtain ⟨⟨t, ht⟩, rfl⟩ := Substitution.get?_resolve_cases hv
    have hvmem := (hover.bound v t ht).1
    -- what the expansion mentions is reached along bindings
    rcases hw with rfl | hw
    · exact hvmem
    · obtain ⟨x, hx, hxw⟩ := Substitution.leads_of_mem_vars_expand hw
      obtain rfl := Term.mem_vars_var.mp hx
      exact hover.leads hvmem hxw
  · intro θ hθ t
    rw [Substitution.apply_resolve]
    exact ((unifies_iff_respects h hp).mp hθ).subst_expand t

/-- **With the occurs check unification computes most general unifiers**: it succeeds
exactly when the lists have equal length and a unifier, and what it returns is a most
general one. -/
theorem unify_checked_mostGeneral (left right : List Term) :
    ((∃ s, unify true left right = .ok s) ↔
        left.length = right.length ∧ ∃ θ, Unifies θ (left.zip right)) ∧
      ∀ s, unify true left right = .ok s → MostGeneralUnifier s left right := by
  refine ⟨⟨?_, ?_⟩, ?_⟩
  · rintro ⟨b, hb⟩
    obtain ⟨hlen, s, hm, hp, -⟩ := unify_eq_ok_iff.mp hb
    have hs := acyclic_of_moves hm Substitution.acyclic_empty
    exact ⟨hlen, _, (unifies_iff_respects hm hp).mpr (respects_expand hs)⟩
  · rintro ⟨hlen, θ, hθ⟩
    rcases h : unify true left right with c | b
    · obtain ⟨s, hm, hstuck⟩ := stuck_of_unify_eq_error hlen h
      have hb := noAliasCycle_of_moves hm Substitution.acyclic_empty.noAliasCycle
      exact absurd (solved_of_moves hm (equalizes_tree_iff.mpr hθ)) (hstuck.not_unified hb)
    · exact ⟨b, rfl⟩
  · intro b hb
    obtain ⟨-, s, hm, hp, rfl⟩ := unify_eq_ok_iff.mp hb
    exact mostGeneralUnifier_resolve hm hp

end TreeRewriting.Unification

/-
TreeRewriting/Proofs/Substitution/Idempotence.lean

The resolved substitution as the solution of its bindings.

Design.  Triangular bindings are read as equations for a substitution: it binds
the variables that they bind, each to what the substitution itself makes of the
bound term (`Closes`).  Nothing in this mentions the walk that resolves the
bindings or the bindings it sets aside.  A solution applied to a term is the
solution applied to the term expanded by any number of bindings
(`Closes.apply_expand`), cycles or not.  Without a cycle the expanded term has no
bound variable left, so the solution can no longer change it, and there is
exactly one.

Main result: `resolve_closes_bindings`.
-/
import TreeRewriting.Proofs.Substitution.Closure

namespace TreeRewriting.Substitution

variable {s m : Substitution} {v : Nat} {t : Term}

/-! ### Terms without bound variables -/

/-- A substitution does not change a term that mentions no bound variable. -/
theorem apply_of_unbound (h : ∀ v ∈ t.vars, s.get? v = none) : s.apply t = t := by
  induction t with
  | var v =>
    have hv := h v (Term.mem_vars_var.mpr rfl)
    rw [apply, hv]
    rfl
  | app f ts ih =>
    have hts : ∀ t ∈ ts, s.apply t = t := fun t ht =>
      ih t ht fun v hv => h v (Term.mem_vars_app.mpr ⟨t, ht, hv⟩)
    rw [apply, applyList_eq_map, List.map_congr_left hts, List.map_id']

/-- Nor does expansion. -/
theorem expand_of_unbound (h : ∀ v ∈ t.vars, s.get? v = none) : s.expand t = t := by
  induction t with
  | var v => exact expand_var_of_none (h v (Term.mem_vars_var.mpr rfl))
  | app f ts ih =>
    have hts : ∀ t ∈ ts, s.expand t = t := fun t ht =>
      ih t ht fun v hv => h v (Term.mem_vars_app.mpr ⟨t, ht, hv⟩)
    rw [expand_app, List.map_congr_left hts, List.map_id']

/-! ### Idempotent substitutions -/

/-- Where no bound term mentions a bound variable, a second application changes nothing. -/
theorem apply_apply (hs : s.isIdempotent = true) (t : Term) : s.apply (s.apply t) = s.apply t := by
  induction t with
  | var v =>
    rw [apply]
    rcases hv : s.get? v with - | u
    · exact apply_of_unbound fun w hw => Term.mem_vars_var.mp hw ▸ hv
    · exact apply_of_unbound (isIdempotent_iff.mp hs v u hv)
  | app f ts ih =>
    simp only [apply, applyList_eq_map, List.map_map]
    congr 1
    exact List.map_congr_left ih

/-- An idempotent substitution has no cycle, since its edges enter variables that none leave. -/
theorem acyclic_of_isIdempotent (hs : s.isIdempotent = true) : s.Acyclic := by
  intro v hv
  obtain ⟨w, ⟨t, ht, hw⟩, hwv⟩ := Relation.TransGen.head'_iff.mp hv
  have hnone := isIdempotent_iff.mp hs v t ht w hw
  obtain rfl := eq_of_reflTransGen_unbound hnone hwv
  rw [ht] at hnone
  cases hnone

/-- An idempotent substitution is resolved. -/
theorem resolve_of_isIdempotent (hs : s.isIdempotent = true) : s.resolve = s := by
  apply ext_get?
  intro v
  rcases hv : s.get? v with - | t
  · exact get?_resolve_of_none hv
  · rw [get?_resolve_of_some hv, expand_var (acyclic_of_isIdempotent hs) hv,
      expand_of_unbound (isIdempotent_iff.mp hs v t hv)]

/-! ### Solutions of bindings -/

/-- A substitution closes bindings when it binds the same variables, each to what it makes
itself of the bound term. -/
structure Closes (s m : Substitution) : Prop where
  binds_eq : ∀ v, s.binds v = m.binds v
  get?_eq : ∀ v t, m.get? v = some t → s.get? v = some (s.apply t)

theorem Closes.get?_eq_none (hs : s.Closes m) (h : m.get? v = none) : s.get? v = none := by
  have hv := hs.binds_eq v
  simpa [binds, h] using hv

/-- Following bindings makes no difference to what a solution makes of a term. -/
theorem apply_expand_of_bound (hs : ∀ v t, m.get? v = some t → s.get? v = some (s.apply t))
    (t : Term) : s.apply (m.expand t) = s.apply t := by
  fun_induction expand m t with
  | case1 m v t hv ih =>
    -- fewer bindings are fewer equations
    rw [ih fun w u hw => hs w u (m.erase_le v w u hw), apply, hs v t hv]
    rfl
  | case2 => rfl
  | case3 m f ts ih =>
    simp only [apply, applyList_eq_map, List.map_map]
    congr 1
    exact List.map_congr_left fun t ht => ih t ht hs

/-- The resolved substitution is a solution when there is no cycle. -/
theorem closes_resolve (hm : m.Acyclic) : m.resolve.Closes m where
  binds_eq v := by simp [binds, get?_resolve]
  get?_eq v t hv := by rw [get?_resolve_of_some hv, apply_resolve, expand_var hm hv]

/-- Without a cycle a solution applied is the bindings expanded. -/
theorem Closes.apply_eq (hs : s.Closes m) (hm : m.Acyclic) (t : Term) : s.apply t = m.expand t := by
  rw [← apply_expand_of_bound hs.get?_eq t]
  exact apply_of_unbound fun v hv => hs.get?_eq_none (unbound_of_mem_vars_expand hm hv)

/-- Without a cycle there is one solution. -/
theorem Closes.eq_resolve (hs : s.Closes m) (hm : m.Acyclic) : s = m.resolve := by
  apply ext_get?
  intro v
  rcases hv : m.get? v with - | t
  · rw [hs.get?_eq_none hv, get?_resolve_of_none hv]
  · rw [hs.get?_eq v t hv, get?_resolve_of_some hv, hs.apply_eq hm, expand_var hm hv]

/-- **Resolving closes triangular bindings.**  It binds the variables that are bound, and
the result is idempotent exactly when no bound variable leads back to itself.  In that case
the result is the one substitution that binds each of these variables to what it makes
itself of the variable's term, and resolving once more changes nothing.  What an idempotent
substitution has been applied to, it does not change again. -/
theorem resolve_closes_bindings (m : Substitution) :
    (∀ v, m.resolve.binds v = m.binds v) ∧
      (m.resolve.isIdempotent = true ↔ m.Acyclic) ∧
      (m.Acyclic → (∀ s : Substitution, s.Closes m ↔ s = m.resolve) ∧
        m.resolve.resolve = m.resolve) ∧
      ∀ s : Substitution, s.isIdempotent = true → ∀ t, s.apply (s.apply t) = s.apply t := by
  refine ⟨fun v => ?binds, isIdempotent_resolve_iff, fun hm => ⟨fun s => ?closes, ?again⟩,
    fun s hs t => apply_apply hs t⟩
  case binds => simp [binds, get?_resolve]
  case closes =>
    constructor
    · intro hs
      exact hs.eq_resolve hm
    · rintro rfl
      exact closes_resolve hm
  case again => exact resolve_of_isIdempotent (isIdempotent_resolve_iff.mpr hm)

end TreeRewriting.Substitution

/-
TreeRewriting/Proofs/Substitution/Closure.lean

What the walks along bindings find.

Design.  Following bindings at the top of a term (`chase`), looking for a
variable at every depth (`reaches`) and expanding a term (`expand`) all set a
binding aside once it has been followed, so that they end on cyclic bindings
too.  Here they are compared with plain paths (`Leads`).  Without cycles nothing
is ever met again, so setting aside makes no difference
(`expand_erase_of_not_leads`, `chase_erase_of_not_aliases`).  With a cycle it
does, and what stays behind is the variable at which the cycle closes.

Main results: applying the resolved substitution is expanding
(`apply_resolve`), and the resolved substitution is idempotent exactly when
there was no cycle (`isIdempotent_resolve_iff`).
-/
import TreeRewriting.Proofs.Substitution.Dependency
import TreeRewriting.Unification.Step

namespace TreeRewriting.Substitution

open Relation

variable {s s' : Substitution} {v w : Nat} {t : Term}

/-! ### Following bindings at the top of a term -/

/-- One binding followed at the top of a term. -/
def Follow (s : Substitution) (a b : Term) : Prop := ∃ v, a = .var v ∧ s.get? v = some b

theorem Follow.mono {a b : Term} (h : s.Follow a b) (hs : s ≤ s') : s'.Follow a b := by
  obtain ⟨v, rfl, hv⟩ := h
  exact ⟨v, rfl, hs v b hv⟩

/-- Chasing follows bindings. -/
theorem follow_chase (s : Substitution) (t : Term) : ReflTransGen s.Follow t (s.chase t) := by
  fun_induction chase s t with
  | case1 s v t h ih =>
    have hrest := ReflTransGen.mono (fun _ _ hf => hf.mono (s.erase_le v)) _ _ ih
    exact .head ⟨v, rfl, h⟩ hrest
  | case2 => exact .refl
  | case3 => exact .refl

/-- Bindings that end in a variable are a path of aliases. -/
theorem aliases_of_follow {a : Term} (h : ReflTransGen s.Follow a (.var v)) :
    ∃ w, a = .var w ∧ ReflTransGen s.Aliases w v := by
  induction h using ReflTransGen.head_induction_on with
  | refl => exact ⟨v, rfl, .refl⟩
  | head h _ ih =>
    obtain ⟨x, rfl, hx⟩ := h
    obtain ⟨w, rfl, hw⟩ := ih
    exact ⟨x, rfl, .head hx hw⟩

/-- Without a cycle of aliases chasing ends at a variable that is not bound, or at an
application. -/
theorem unbound_of_chase (hs : s.NoAliasCycle) (h : s.chase t = .var v) : s.get? v = none := by
  fun_induction chase s t with
  | case1 s w t hw ih =>
    have hv := ih (hs.of_le (s.erase_le w)) h
    rw [get?_erase] at hv
    split at hv
    · -- the chase would have come back to where it started
      rename_i e
      subst e
      have hpath := follow_chase (s.erase v) t
      rw [h] at hpath
      obtain ⟨x, rfl, hx⟩ := aliases_of_follow hpath
      have hvx : s.Aliases v x := hw
      exact absurd (TransGen.head' hvx (aliasPath_of_erase hx)) (hs v)
    · exact hv
  | case2 s w hw =>
    obtain rfl := Term.var.inj h
    exact hw
  | case3 => cases h

/-- A binding to which no aliases lead is not met by chasing. -/
theorem chase_erase_of_not_aliases
    (h : ∀ w, t = .var w → ¬ ReflTransGen s.Aliases w v) : (s.erase v).chase t = s.chase t := by
  fun_induction chase s t with
  | case1 s w t hw ih =>
    have hne : w ≠ v := by
      rintro rfl
      exact h w rfl .refl
    have hw' : (s.erase v).get? w = some t := by
      rw [get?_erase, if_neg hne, hw]
    -- both chases set the first variable aside, in either order
    rw [chase_var_of_some hw', erase_comm]
    refine ih fun x hx hxv => h w rfl ?_
    subst hx
    have hwx : s.Aliases w x := hw
    exact .head hwx (aliasPath_of_erase hxv)
  | case2 s w hw => rw [chase_var_of_none (by simp [hw])]
  | case3 s f ts => rw [chase_app]

/-- Without a cycle of aliases a bound variable is chased as its term is. -/
theorem chase_var (hs : s.NoAliasCycle) (h : s.get? v = some t) :
    s.chase (.var v) = s.chase t := by
  rw [chase_var_of_some h]
  apply chase_erase_of_not_aliases
  rintro w rfl hwv
  exact hs v (TransGen.head' h hwv)

/-! ### Expansion and the variables it leaves -/

/-- The variables that an expanded term still has are those that the walk at every depth
finds. -/
theorem mem_vars_expand_iff_reaches (s : Substitution) (v : Nat) (t : Term) :
    v ∈ (s.expand t).vars ↔ s.reaches v t = true := by
  fun_induction expand s t with
  | case1 s w t hw ih => rw [reaches_var_of_some hw, ih]
  | case2 s w hw =>
    rw [reaches_var_of_none hw, Term.mem_vars_var, beq_iff_eq]
    exact eq_comm
  | case3 s f ts ih =>
    rw [reaches_app, List.any_eq_true, Term.mem_vars_app]
    simp only [List.mem_map]
    constructor
    · rintro ⟨_, ⟨t, ht, rfl⟩, hv⟩
      exact ⟨t, ht, (ih t ht).mp hv⟩
    · rintro ⟨t, ht, hv⟩
      exact ⟨_, ⟨t, ht, rfl⟩, (ih t ht).mpr hv⟩

/-- What an expanded term mentions is reached from the term. -/
theorem leads_of_mem_vars_expand (h : v ∈ (s.expand t).vars) :
    ∃ w ∈ t.vars, ReflTransGen s.Leads w v := by
  fun_induction expand s t with
  | case1 s w t hw ih =>
    obtain ⟨x, hx, hxv⟩ := ih h
    exact ⟨w, by simp, .head ⟨t, hw, hx⟩ (path_of_erase hxv)⟩
  | case2 s w hw => exact ⟨v, h, .refl⟩
  | case3 s f ts ih =>
    simp only [Term.mem_vars_app, List.mem_map] at h
    obtain ⟨_, ⟨t, ht, rfl⟩, hv⟩ := h
    obtain ⟨w, hw, hwv⟩ := ih t ht hv
    exact ⟨w, Term.mem_vars_app.mpr ⟨t, ht, hw⟩, hwv⟩

/-- A variable that is not bound stays in the expanded term when it is reached. -/
theorem mem_vars_expand_iff (hv : s.get? v = none) :
    v ∈ (s.expand t).vars ↔ ∃ w ∈ t.vars, ReflTransGen s.Leads w v := by
  refine ⟨leads_of_mem_vars_expand, ?_⟩
  intro h
  fun_induction expand s t with
  | case1 s w t hw ih =>
    obtain ⟨_, hx, hwv⟩ := h
    obtain rfl := Term.mem_vars_var.mp hx
    rcases reflTransGen_iff_eq_or_transGen.mp hwv with rfl | hwv
    · rw [hv] at hw
      cases hw
    · -- the binding is not needed again after the last departure
      obtain ⟨u, hu, x, hx, hxv⟩ := exists_path_erase hwv
      obtain rfl : t = u := Option.some.inj (hw.symm.trans hu)
      exact ih (by simp [hv]) ⟨x, hx, hxv⟩
  | case2 s w hw =>
    obtain ⟨_, hx, hwv⟩ := h
    obtain rfl := Term.mem_vars_var.mp hx
    rw [eq_of_reflTransGen_unbound hw hwv]
    simp
  | case3 s f ts ih =>
    obtain ⟨w, hw, hwv⟩ := h
    obtain ⟨t, ht, hwt⟩ := Term.mem_vars_app.mp hw
    rw [Term.mem_vars_app]
    exact ⟨_, List.mem_map_of_mem ht, ih t ht hv ⟨w, hwt, hwv⟩⟩

/-- The walk at every depth finds a variable that is not bound when it is reached. -/
theorem reaches_iff (hv : s.get? v = none) :
    s.reaches v t = true ↔ ∃ w ∈ t.vars, ReflTransGen s.Leads w v := by
  rw [← mem_vars_expand_iff_reaches, mem_vars_expand_iff hv]

/-- Without a cycle the expanded term mentions no bound variable. -/
theorem unbound_of_mem_vars_expand (hs : s.Acyclic) (h : v ∈ (s.expand t).vars) :
    s.get? v = none := by
  fun_induction expand s t with
  | case1 s w t hw ih =>
    have hv := ih (hs.of_le (s.erase_le w)) h
    rw [get?_erase] at hv
    split at hv
    · -- the variable would have been met again below itself
      rename_i e
      subst e
      obtain ⟨x, hx, hxv⟩ := leads_of_mem_vars_expand h
      exact absurd (TransGen.head' ⟨t, hw, hx⟩ (path_of_erase hxv)) (hs v)
    · exact hv
  | case2 s w hw =>
    obtain rfl := Term.mem_vars_var.mp h
    exact hw
  | case3 s f ts ih =>
    simp only [Term.mem_vars_app, List.mem_map] at h
    obtain ⟨_, ⟨t, ht, rfl⟩, hv⟩ := h
    exact ih t ht hs hv

/-- A binding that is not reached makes no difference to expansion. -/
theorem expand_erase_of_not_leads (h : ∀ w ∈ t.vars, ¬ ReflTransGen s.Leads w v) :
    (s.erase v).expand t = s.expand t := by
  fun_induction expand s t with
  | case1 s w t hw ih =>
    have hwv := h w (by simp)
    have hne : w ≠ v := by
      rintro rfl
      exact hwv .refl
    have hw' : (s.erase v).get? w = some t := by
      rw [get?_erase, if_neg hne, hw]
    rw [expand_var_of_some hw', erase_comm]
    exact ih fun x hx hxv => hwv (.head ⟨t, hw, hx⟩ (path_of_erase hxv))
  | case2 s w hw => rw [expand_var_of_none (by simp [hw])]
  | case3 s f ts ih =>
    rw [expand_app]
    congr 1
    apply List.map_congr_left
    intro t ht
    apply ih t ht
    intro w hw
    exact h w (Term.mem_vars_app.mpr ⟨t, ht, hw⟩)

/-- Without a cycle a bound variable expands as its term does. -/
theorem expand_var (hs : s.Acyclic) (h : s.get? v = some t) :
    s.expand (.var v) = s.expand t := by
  rw [expand_var_of_some h]
  exact expand_erase_of_not_leads fun w hw hwv => hs v (TransGen.head' ⟨t, h, hw⟩ hwv)

/-! ### The resolved substitution -/

theorem get?_resolve_of_some (h : s.get? v = some t) :
    s.resolve.get? v = some (s.expand (.var v)) := by
  rw [get?_resolve, h, expand_var_of_some h]
  rfl

theorem get?_resolve_of_none (h : s.get? v = none) : s.resolve.get? v = none := by
  rw [get?_resolve, h]
  rfl

/-- What the resolved substitution binds was bound, and it is bound to an expansion. -/
theorem get?_resolve_cases {u : Term} (h : s.resolve.get? v = some u) :
    (∃ t, s.get? v = some t) ∧ s.expand (.var v) = u := by
  rcases ht : s.get? v with - | t
  · rw [get?_resolve_of_none ht] at h
    cases h
  · rw [get?_resolve_of_some ht] at h
    exact ⟨⟨t, rfl⟩, Option.some.inj h⟩

/-- Resolving binds the variables that were bound. -/
theorem get?_resolve_eq_none_iff : s.resolve.get? v = none ↔ s.get? v = none := by
  rw [get?_resolve, Option.map_eq_none_iff]

/-- Applying the resolved substitution is expanding. -/
theorem apply_resolve (s : Substitution) (t : Term) : s.resolve.apply t = s.expand t := by
  induction t with
  | var v =>
    rw [apply]
    rcases h : s.get? v with - | t
    · rw [get?_resolve_of_none h, expand_var_of_none h]
      rfl
    · rw [get?_resolve_of_some h]
      rfl
  | app f ts ih =>
    rw [apply, applyList_eq_map, expand_app]
    congr 1
    exact List.map_congr_left ih

theorem isIdempotent_iff :
    s.isIdempotent = true ↔ ∀ v t, s.get? v = some t → ∀ w ∈ t.vars, s.get? w = none := by
  simp only [isIdempotent, List.all_eq_true, binds, Bool.not_eq_true', Option.isSome_eq_false_iff,
    Option.isNone_iff_eq_none]
  constructor
  · intro h v t hv
    exact h (v, t) (get?_eq_some_iff.mp hv)
  · rintro h ⟨v, t⟩ he
    exact h v t (get?_eq_some_iff.mpr he)

/-- **The resolved substitution is idempotent exactly when there is no cycle**: on a cycle
the variable at which the walk closes it stays in the resolved term. -/
theorem isIdempotent_resolve_iff : s.resolve.isIdempotent = true ↔ s.Acyclic := by
  rw [isIdempotent_iff]
  constructor
  · intro h v hv
    obtain ⟨t, ht, x, hx, hxv⟩ := exists_path_erase hv
    -- the variable is met again below itself and stays in its own expansion
    have hmem : v ∈ (s.expand (.var v)).vars := by
      rw [expand_var_of_some ht]
      exact (mem_vars_expand_iff (by simp)).mpr ⟨x, hx, hxv⟩
    have hnone := get?_resolve_eq_none_iff.mp (h v _ (get?_resolve_of_some ht) v hmem)
    rw [ht] at hnone
    cases hnone
  · intro hs v u hv w hw
    obtain ⟨-, rfl⟩ := get?_resolve_cases hv
    exact get?_resolve_eq_none_iff.mpr (unbound_of_mem_vars_expand hs hw)

end TreeRewriting.Substitution

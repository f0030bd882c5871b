/-
TreeRewriting/Proofs/Substitution/Dependency.lean

Where the bindings of a substitution lead.

Design.  A bound variable leads to the variables of its term (`Leads`); a
substitution is acyclic when no variable leads back to itself.  A variable that
is bound to a variable is an alias of it (`Aliases`), and a cycle of aliases is
the one kind of cycle that following bindings at the top of a term would never
leave.  Both notions are cycle-freeness of a relation, and both survive the
binding of a variable that the new term does not lead to, by the same argument
(`CycleFree.insert`).

Setting a binding aside takes away the edges that leave its variable.  So a
path from a variable can be taken from its last departure on
(`exists_last_departure`), which is how walks that set bindings aside are
compared with paths.
-/
import Mathlib.Logic.Relation
import Mathlib.Order.Basic
import TreeRewriting.Substitution.Resolution

namespace TreeRewriting

open Relation

/-! ### Cycles of a relation -/

section

variable {α : Type} {R R' : α → α → Prop}

/-- No path of at least one step comes back to where it started. -/
def CycleFree (R : α → α → Prop) : Prop := ∀ x, ¬ TransGen R x x

theorem CycleFree.mono (hR : CycleFree R) (h : ∀ a b, R' a b → R a b) : CycleFree R' :=
  fun x hx => hR x (TransGen.mono h x x hx)

/-- A path can be taken from the last time it departs from its start. -/
theorem exists_last_departure {w v : α} (h : TransGen R w v) :
    ∃ x, R w x ∧ ReflTransGen (fun a b => R a b ∧ a ≠ w) x v := by
  induction h with
  | single h => exact ⟨_, h, .refl⟩
  | @tail y z _ hyz ih =>
    obtain ⟨x, hwx, hxy⟩ := ih
    -- where the path comes back to its start, it is taken from there
    by_cases hy : y = w
    · exact ⟨z, hy ▸ hyz, .refl⟩
    · exact ⟨x, hwx, hxy.tail ⟨hyz, hy⟩⟩

section

variable {v : α} (h : ∀ a b, R' a b → R a b ∨ a = v ∧ ¬ ReflTransGen R b v)

include h

/-- With edges added that leave one vertex, what leads to the vertex did so before. -/
theorem reflTransGen_of_insert {c x : α} (hcx : ReflTransGen R' c x) (hxv : ReflTransGen R x v) :
    ReflTransGen R c v := by
  induction hcx using ReflTransGen.head_induction_on with
  | refl => exact hxv
  | head hac _ ih =>
    rcases h _ _ hac with hR | ⟨rfl, -⟩
    · exact .head hR ih
    · exact .refl

/-- Edges may be added that leave one vertex, when nothing they enter leads to it. -/
theorem CycleFree.insert (hR : CycleFree R) : CycleFree R' := by
  intro x hx
  -- follow the cycle up to the first added edge
  have key : ∀ a, TransGen R' a x → TransGen R a x ∨
      ReflTransGen R a v ∧ ∃ c, ¬ ReflTransGen R c v ∧ ReflTransGen R' c x := by
    intro a ha
    induction ha using TransGen.head_induction_on with
    | single hax =>
      rcases h _ _ hax with hR | ⟨rfl, hn⟩
      · exact .inl (.single hR)
      · exact .inr ⟨.refl, x, hn, .refl⟩
    | @head a c hac hcx ih =>
      rcases h _ _ hac with hR | ⟨rfl, hn⟩
      · rcases ih with ih | ⟨hcv, hrest⟩
        · exact .inl (.head hR ih)
        · exact .inr ⟨.head hR hcv, hrest⟩
      · exact .inr ⟨.refl, c, hn, hcx.to_reflTransGen⟩
  rcases key x hx with hxx | ⟨hxv, c, hn, hcx⟩
  · exact hR x hxx
  · exact hn (reflTransGen_of_insert h hcx hxv)

end

end

namespace Substitution

variable {s s' : Substitution} {v w : Nat} {t : Term}

/-! ### The edges -/

/-- A bound variable leads to the variables of its term. -/
def Leads (s : Substitution) (v w : Nat) : Prop := ∃ t, s.get? v = some t ∧ w ∈ t.vars

/-- A variable that is bound to a variable is an alias of it. -/
def Aliases (s : Substitution) (v w : Nat) : Prop := s.get? v = some (.var w)

/-- No variable leads back to itself. -/
def Acyclic (s : Substitution) : Prop := CycleFree s.Leads

/-- No variable is an alias of an alias of itself, however far. -/
def NoAliasCycle (s : Substitution) : Prop := CycleFree s.Aliases

theorem Aliases.leads (h : s.Aliases v w) : s.Leads v w := ⟨_, h, by simp⟩

theorem Acyclic.noAliasCycle (h : s.Acyclic) : s.NoAliasCycle := h.mono fun _ _ => Aliases.leads

theorem not_leads_of_unbound (h : s.get? v = none) : ¬ s.Leads v w := by
  rintro ⟨t, ht, -⟩
  rw [h] at ht
  cases ht

/-- From a variable that is not bound nothing else is reached. -/
theorem eq_of_reflTransGen_unbound (h : s.get? v = none) (hw : ReflTransGen s.Leads v w) :
    v = w := by
  rcases hw.cases_head with e | ⟨x, hx, -⟩
  · exact e
  · exact absurd hx (not_leads_of_unbound h)

/-! ### More bindings -/

/-- A substitution extends another when it has all its bindings. -/
instance : Preorder Substitution where
  le s s' := ∀ v t, s.get? v = some t → s'.get? v = some t
  le_refl _ _ _ h := h
  le_trans _ _ _ h h' v t hv := h' v t (h v t hv)

theorem erase_le (s : Substitution) (v : Nat) : s.erase v ≤ s := by
  intro w t h
  rw [get?_erase] at h
  split at h
  · cases h
  · exact h

theorem le_insert (h : s.get? v = none) (t : Term) : s ≤ s.insert v t := by
  intro w u hw
  rw [get?_insert, if_neg]
  · exact hw
  · rintro rfl
    rw [h] at hw
    cases hw

/-- What is bound after an insertion is the new binding or was bound before. -/
theorem get?_insert_cases {u : Term} (h : (s.insert v t).get? w = some u) :
    w = v ∧ t = u ∨ s.get? w = some u := by
  rw [get?_insert] at h
  split at h
  · exact .inl ⟨‹w = v›, Option.some.inj h⟩
  · exact .inr h

theorem Leads.mono (h : s.Leads v w) (hs : s ≤ s') : s'.Leads v w := by
  obtain ⟨t, ht, hw⟩ := h
  exact ⟨t, hs v t ht, hw⟩

theorem Acyclic.of_le (h : s'.Acyclic) (hs : s ≤ s') : s.Acyclic := h.mono fun _ _ hl => hl.mono hs

theorem NoAliasCycle.of_le (h : s'.NoAliasCycle) (hs : s ≤ s') : s.NoAliasCycle :=
  h.mono fun _ _ hl => hs _ _ hl

theorem leads_erase {x : Nat} : (s.erase x).Leads v w ↔ s.Leads v w ∧ v ≠ x := by
  by_cases h : v = x
  · simp [Leads, h]
  · simp [Leads, h]

theorem aliases_erase {x : Nat} : (s.erase x).Aliases v w ↔ s.Aliases v w ∧ v ≠ x := by
  by_cases h : v = x
  · simp [Aliases, h]
  · simp [Aliases, h]

/-- A path along bindings that remain is a path along all of them. -/
theorem path_of_erase {x : Nat} (h : ReflTransGen (s.erase x).Leads v w) :
    ReflTransGen s.Leads v w :=
  ReflTransGen.mono (fun _ _ hl => (leads_erase.mp hl).1) v w h

theorem aliasPath_of_erase {x : Nat} (h : ReflTransGen (s.erase x).Aliases v w) :
    ReflTransGen s.Aliases v w :=
  ReflTransGen.mono (fun _ _ ha => (aliases_erase.mp ha).1) v w h

/-- What a variable leads to is reached from its term without its binding. -/
theorem exists_path_erase (h : TransGen s.Leads v w) :
    ∃ t, s.get? v = some t ∧ ∃ x ∈ t.vars, ReflTransGen (s.erase v).Leads x w := by
  obtain ⟨x, ⟨t, ht, hx⟩, hxw⟩ := exists_last_departure h
  exact ⟨t, ht, x, hx, ReflTransGen.mono (fun _ _ hl => leads_erase.mpr hl) x w hxw⟩

theorem erase_comm (s : Substitution) (v w : Nat) : (s.erase v).erase w = (s.erase w).erase v := by
  apply ext_get?
  intro x
  simp only [get?_erase]
  by_cases hv : x = v <;> by_cases hw : x = w <;> simp [hv, hw]

/-- A variable may be bound to a term that does not lead to it. -/
theorem Acyclic.insert (h : s.Acyclic) (ht : ∀ w ∈ t.vars, ¬ ReflTransGen s.Leads w v) :
    (s.insert v t).Acyclic := by
  refine CycleFree.insert (v := v) ?_ h
  intro a b hab
  obtain ⟨u, hu, hb⟩ := hab
  rcases get?_insert_cases hu with ⟨e, rfl⟩ | hu
  · exact .inr ⟨e, ht b hb⟩
  · exact .inl ⟨u, hu, hb⟩

/-- A variable may be bound to a term other than itself that is no bound variable. -/
theorem NoAliasCycle.insert (h : s.NoAliasCycle)
    (ht : ∀ w, t = .var w → w ≠ v ∧ s.get? w = none) : (s.insert v t).NoAliasCycle := by
  refine CycleFree.insert (v := v) ?_ h
  intro a b hab
  rcases get?_insert_cases hab with ⟨e, hb⟩ | hab
  · obtain ⟨hne, hnone⟩ := ht b hb
    refine .inr ⟨e, fun hb => hne ?_⟩
    exact eq_of_reflTransGen_unbound hnone (ReflTransGen.mono (fun _ _ => Aliases.leads) b v hb)
  · exact .inl hab

/-- A variable bound to a term that leads to it lies on a cycle. -/
theorem not_acyclic_insert (hv : s.get? v = none) (ht : ∃ w ∈ t.vars, ReflTransGen s.Leads w v) :
    ¬ (s.insert v t).Acyclic := by
  obtain ⟨w, hw, hwv⟩ := ht
  have hstep : (s.insert v t).Leads v w := ⟨t, by simp, hw⟩
  have hpath : ReflTransGen (s.insert v t).Leads w v :=
    ReflTransGen.mono (fun _ _ hl => hl.mono (le_insert hv t)) w v hwv
  intro h
  exact h v (TransGen.head' hstep hpath)

theorem acyclic_empty : empty.Acyclic := by
  intro v hv
  obtain ⟨w, hw, -⟩ := TransGen.head'_iff.mp hv
  exact not_leads_of_unbound rfl hw

end Substitution

end TreeRewriting

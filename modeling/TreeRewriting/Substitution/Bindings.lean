/-
TreeRewriting/Substitution/Bindings.lean

Finite maps from variables to terms.

Design.  A substitution is a list of bindings in strictly ascending order of
the variables, and the order is part of the type.  So two substitutions that
bind the same variables to the same terms are equal (`Substitution.ext_get?`),
and nothing depends on the order in which bindings were made.
-/
import TreeRewriting.Term

namespace TreeRewriting

/-- A finite map from variables to terms. -/
structure Substitution where
  entries : List (Nat × Term)
  ascending : entries.Pairwise (fun a b => a.1 < b.1)
  deriving DecidableEq

namespace Substitution

/-! ### The map and its changes -/

/-- The substitution that binds nothing. -/
def empty : Substitution := ⟨[], .nil⟩

instance : Inhabited Substitution := ⟨empty⟩

/-- The term a variable is bound to. -/
def get? (s : Substitution) (v : Nat) : Option Term := s.entries.lookup v

/-- Whether a variable is bound. -/
def binds (s : Substitution) (v : Nat) : Bool := (s.get? v).isSome

/-- The number of bindings. -/
def size (s : Substitution) : Nat := s.entries.length

/-- The bound variables, ascending. -/
def keys (s : Substitution) : List Nat := s.entries.map (·.1)

/-- Puts a binding into its place in an ascending list. -/
def insertEntry (v : Nat) (t : Term) : List (Nat × Term) → List (Nat × Term)
  | [] => [(v, t)]
  | (w, u) :: rest =>
    if v < w then (v, t) :: (w, u) :: rest
    else if v = w then (v, t) :: rest
    else (w, u) :: insertEntry v t rest

theorem mem_insertEntry {v : Nat} {t : Term} {l : List (Nat × Term)} {e : Nat × Term}
    (h : e ∈ insertEntry v t l) : e = (v, t) ∨ e ∈ l := by
  induction l with
  | nil => simpa [insertEntry] using h
  | cons a l ih =>
    obtain ⟨w, u⟩ := a
    simp only [insertEntry] at h
    split at h
    · simpa using h
    · split at h
      · rcases List.mem_cons.mp h with h | h
        · exact .inl h
        · exact .inr (List.mem_cons_of_mem _ h)
      · rcases List.mem_cons.mp h with h | h
        · exact .inr (by simp [h])
        · rcases ih h with h | h
          · exact .inl h
          · exact .inr (List.mem_cons_of_mem _ h)

theorem ascending_insertEntry {v : Nat} {t : Term} {l : List (Nat × Term)}
    (h : l.Pairwise fun a b => a.1 < b.1) :
    (insertEntry v t l).Pairwise fun a b => a.1 < b.1 := by
  induction l with
  | nil => simp [insertEntry]
  | cons a l ih =>
    obtain ⟨w, u⟩ := a
    obtain ⟨hw, hl⟩ := List.pairwise_cons.mp h
    simp only [insertEntry]
    split
    · refine List.pairwise_cons.mpr ⟨fun b hb => ?_, h⟩
      rcases List.mem_cons.mp hb with rfl | hb
      · assumption
      · have := hw b hb
        simp only at *
        omega
    · split
      · rename_i e
        subst e
        exact List.pairwise_cons.mpr ⟨hw, hl⟩
      · refine List.pairwise_cons.mpr ⟨fun b hb => ?_, ih hl⟩
        rcases mem_insertEntry hb with rfl | hb
        · simp only
          omega
        · exact hw b hb

/-- Binds a variable to a term; an earlier binding of the variable is given up. -/
def insert (s : Substitution) (v : Nat) (t : Term) : Substitution :=
  ⟨insertEntry v t s.entries, ascending_insertEntry s.ascending⟩

/-- Gives up the binding of a variable. -/
def erase (s : Substitution) (v : Nat) : Substitution :=
  ⟨s.entries.filter (·.1 != v), s.ascending.filter _⟩

/-- The same variables, each bound to what the function makes of it and its term. -/
def mapTerms (s : Substitution) (f : Nat → Term → Term) : Substitution :=
  ⟨s.entries.map fun e => (e.1, f e.1 e.2), by
    simpa [List.pairwise_map] using s.ascending⟩

/-! ### What each change does to the map -/

@[simp] theorem get?_empty (v : Nat) : empty.get? v = none := rfl

/-- A look-up compares with the first binding and goes on behind it. -/
theorem lookup_cons_pair (v w : Nat) (t : Term) (l : List (Nat × Term)) :
    ((w, t) :: l).lookup v = if v = w then some t else l.lookup v := by
  by_cases h : v = w
  · simp [h]
  · simp [List.lookup_cons, beq_eq_false_iff_ne.mpr h, h]

theorem lookup_insertEntry (v w : Nat) (t : Term) (l : List (Nat × Term)) :
    (insertEntry v t l).lookup w = if w = v then some t else l.lookup w := by
  induction l with
  | nil => rw [insertEntry, lookup_cons_pair]
  | cons a l ih =>
    obtain ⟨x, u⟩ := a
    simp only [insertEntry]
    split
    · rw [lookup_cons_pair]
    · split
      · rename_i e
        subst e
        simp only [lookup_cons_pair]
        split <;> rfl
      · rename_i hne
        simp only [lookup_cons_pair, ih]
        by_cases hx : w = x
        · subst hx
          simp [Ne.symm hne]
        · simp [hx]

@[simp] theorem get?_insert (s : Substitution) (v w : Nat) (t : Term) :
    (s.insert v t).get? w = if w = v then some t else s.get? w :=
  lookup_insertEntry v w t s.entries

theorem lookup_filter_ne (v w : Nat) (l : List (Nat × Term)) :
    (l.filter (·.1 != v)).lookup w = if w = v then none else l.lookup w := by
  induction l with
  | nil => simp
  | cons a l ih =>
    obtain ⟨x, u⟩ := a
    by_cases hx : x = v
    · subst hx
      rw [List.filter_cons_of_neg (by simp), ih, lookup_cons_pair]
      split <;> rfl
    · rw [List.filter_cons_of_pos (by simpa using hx), lookup_cons_pair, lookup_cons_pair, ih]
      by_cases hw : w = x
      · rw [if_pos hw, if_pos hw, if_neg (hw ▸ hx)]
      · rw [if_neg hw, if_neg hw]

@[simp] theorem get?_erase (s : Substitution) (v w : Nat) :
    (s.erase v).get? w = if w = v then none else s.get? w :=
  lookup_filter_ne v w s.entries

theorem lookup_map (f : Nat → Term → Term) (v : Nat) (l : List (Nat × Term)) :
    (l.map fun e => (e.1, f e.1 e.2)).lookup v = (l.lookup v).map (f v) := by
  induction l with
  | nil => rfl
  | cons a l ih =>
    obtain ⟨x, u⟩ := a
    simp only [List.map_cons, lookup_cons_pair, ih]
    split
    · rename_i e
      simp [e]
    · rfl

@[simp] theorem get?_mapTerms (s : Substitution) (f : Nat → Term → Term) (v : Nat) :
    (s.mapTerms f).get? v = (s.get? v).map (f v) :=
  lookup_map f v s.entries

/-! ### Membership -/

theorem mem_of_lookup {v : Nat} {t : Term} {l : List (Nat × Term)} (h : l.lookup v = some t) :
    (v, t) ∈ l := by
  induction l with
  | nil => simp at h
  | cons a l ih =>
    obtain ⟨x, u⟩ := a
    rw [lookup_cons_pair] at h
    split at h
    · rename_i e
      simp_all
    · exact List.mem_cons_of_mem _ (ih h)

theorem lookup_of_mem {v : Nat} {t : Term} {l : List (Nat × Term)}
    (hl : l.Pairwise fun a b => a.1 < b.1) (h : (v, t) ∈ l) : l.lookup v = some t := by
  induction l with
  | nil => simp at h
  | cons a l ih =>
    obtain ⟨x, u⟩ := a
    obtain ⟨hx, hl⟩ := List.pairwise_cons.mp hl
    rw [lookup_cons_pair]
    rcases List.mem_cons.mp h with h | h
    · obtain ⟨rfl, rfl⟩ := Prod.mk.inj h
      simp
    · have hlt := hx _ h
      rw [if_neg (by simp only at hlt; omega), ih hl h]

theorem get?_eq_some_iff {s : Substitution} {v : Nat} {t : Term} :
    s.get? v = some t ↔ (v, t) ∈ s.entries :=
  ⟨mem_of_lookup, lookup_of_mem s.ascending⟩

/-- Giving up a binding that is there makes the map smaller. -/
theorem size_erase_lt {s : Substitution} {v : Nat} {t : Term} (h : s.get? v = some t) :
    (s.erase v).size < s.size := by
  have hm := get?_eq_some_iff.mp h
  have hle : (s.erase v).size ≤ s.size := List.length_filter_le _ _
  refine Nat.lt_of_le_of_ne hle fun he => ?_
  have hall := List.length_filter_eq_length_iff.mp he (v, t) hm
  simp at hall

/-! ### Equality of maps -/

/-- Substitutions that bind the same variables to the same terms are equal. -/
theorem ext_get? {s t : Substitution} (h : ∀ v, s.get? v = t.get? v) : s = t := by
  obtain ⟨l, hl⟩ := s
  obtain ⟨m, hm⟩ := t
  congr 1
  have key : ∀ {l m : List (Nat × Term)} (hl : l.Pairwise fun a b => a.1 < b.1)
      (hm : m.Pairwise fun a b => a.1 < b.1),
      (∀ e, e ∈ l ↔ e ∈ m) → l = m := by
    intro l
    induction l with
    | nil =>
      intro m _ _ hh
      cases m with
      | nil => rfl
      | cons b m => exact absurd ((hh b).mpr (by simp)) (by simp)
    | cons a l ih =>
      intro m hl hm hh
      cases m with
      | nil => exact absurd ((hh a).mp (by simp)) (by simp)
      | cons b m =>
        obtain ⟨ha, hl'⟩ := List.pairwise_cons.mp hl
        obtain ⟨hb, hm'⟩ := List.pairwise_cons.mp hm
        have hab : a = b := by
          rcases List.mem_cons.mp ((hh a).mp (by simp)) with h₁ | h₁
          · exact h₁
          · rcases List.mem_cons.mp ((hh b).mpr (by simp)) with h₂ | h₂
            · exact h₂.symm
            · exact absurd (hb a h₁) (by have := ha b h₂; omega)
        subst hab
        congr 1
        refine ih hl' hm' fun e => ⟨fun he => ?_, fun he => ?_⟩
        · rcases List.mem_cons.mp ((hh e).mp (List.mem_cons_of_mem _ he)) with rfl | h'
          · exact absurd (ha _ he) (Nat.lt_irrefl _)
          · exact h'
        · rcases List.mem_cons.mp ((hh e).mpr (List.mem_cons_of_mem _ he)) with rfl | h'
          · exact absurd (hb _ he) (Nat.lt_irrefl _)
          · exact h'
  refine key hl hm fun e => ?_
  obtain ⟨v, t⟩ := e
  have h₁ := get?_eq_some_iff (s := ⟨l, hl⟩) (v := v) (t := t)
  have h₂ := get?_eq_some_iff (s := ⟨m, hm⟩) (v := v) (t := t)
  simp only at h₁ h₂
  rw [← h₁, ← h₂, h v]

end Substitution

end TreeRewriting

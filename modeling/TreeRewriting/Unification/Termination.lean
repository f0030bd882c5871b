/-
TreeRewriting/Unification/Termination.lean

Why unification ends.

Design.  Without the occurs check the terms reached through cyclic bindings
have no bound on their depth, so neither the size of the pending pairs nor the
number of unbound variables decreases.  What is bounded is the stock of terms:
a step only ever handles subterms of the input.  Of the pairs over that finite
stock each step either meets one for the first time, or it drops a pending
pair and adds none (`State.fewer_of_step`).
-/
import TreeRewriting.Unification.Step

namespace TreeRewriting

/-! ### Subterms -/

namespace Term

mutual

/-- A term and everything inside it. -/
def subterms : Term → List Term
  | .var v => [.var v]
  | .app f ts => .app f ts :: subtermsList ts

/-- The terms of a list and everything inside them. -/
def subtermsList : List Term → List Term
  | [] => []
  | t :: ts => subterms t ++ subtermsList ts

end

theorem mem_subtermsList {s : Term} {ts : List Term} :
    s ∈ subtermsList ts ↔ ∃ t ∈ ts, s ∈ t.subterms := by
  induction ts with
  | nil => simp [subtermsList]
  | cons t ts ih => simp [subtermsList, ih]

theorem self_mem_subterms (t : Term) : t ∈ t.subterms := by
  cases t <;> simp [subterms]

/-- A stock of terms is closed when it holds the arguments of its applications. -/
def Closed (stock : List Term) : Prop :=
  ∀ f ts, app f ts ∈ stock → ∀ t ∈ ts, t ∈ stock

theorem closed_subterms (t : Term) : Closed t.subterms := by
  induction t with
  | var v => intro f ts h; simp [subterms] at h
  | app g us ih =>
    intro f ts h t ht
    simp only [subterms, List.mem_cons, mem_subtermsList] at h ⊢
    rcases h with h | ⟨u, hu, h⟩
    · obtain ⟨rfl, rfl⟩ := Term.app.inj h
      exact .inr ⟨t, ht, self_mem_subterms t⟩
    · exact .inr ⟨u, hu, ih u hu f ts h t ht⟩

theorem closed_subtermsList (ts : List Term) : Closed (subtermsList ts) := by
  intro f us h u hu
  obtain ⟨t, ht, h⟩ := mem_subtermsList.mp h
  exact mem_subtermsList.mpr ⟨t, ht, closed_subterms t f us h u hu⟩

theorem mem_subtermsList_self {t : Term} {ts : List Term} (h : t ∈ ts) : t ∈ subtermsList ts :=
  mem_subtermsList.mpr ⟨t, h, self_mem_subterms t⟩

end Term

namespace Unification

/-! ### States over a stock of terms -/

/-- Every pending and every bound term comes from the stock. -/
structure State.Within (stock : List Term) (s : State) : Prop where
  pending : ∀ p ∈ s.pending, p.1 ∈ stock ∧ p.2 ∈ stock
  bound : ∀ v t, s.bindings.get? v = some t → t ∈ stock

/-- All pairs over a stock. -/
def pairs (stock : List Term) : List (Term × Term) :=
  stock.flatMap fun a => stock.map fun b => (a, b)

theorem mem_pairs {stock : List Term} {p : Term × Term} :
    p ∈ pairs stock ↔ p.1 ∈ stock ∧ p.2 ∈ stock := by
  obtain ⟨a, b⟩ := p
  simp [pairs]

/-- The number of pairs over a stock that have not been met. -/
def State.unmet (stock : List Term) (s : State) : Nat :=
  (pairs stock).countP fun p => !s.met.contains p

/-- Following bindings stays inside the stock. -/
theorem State.Within.chase_mem {stock : List Term} {s : State} (h : s.Within stock) {t : Term}
    (ht : t ∈ stock) : s.bindings.chase t ∈ stock := by
  rcases s.bindings.chase_eq_or_bound t with e | ⟨v, hv⟩
  · rw [e]
    exact ht
  · exact h.bound v _ hv

theorem countP_lt_countP {α : Type} {p q : α → Bool} {l : List α} {a : α}
    (hpq : ∀ x, p x = true → q x = true) (ha : a ∈ l) (hp : p a = false) (hq : q a = true) :
    l.countP p < l.countP q := by
  induction l with
  | nil => simp at ha
  | cons b l ih =>
    have hle : l.countP p ≤ l.countP q := List.countP_mono_left fun x _ => hpq x
    rcases List.mem_cons.mp ha with rfl | ha
    · rw [List.countP_cons_of_pos hq, List.countP_cons_of_neg (by simp [hp])]
      omega
    · have := ih ha
      by_cases hb : p b = true
      · rw [List.countP_cons_of_pos hb, List.countP_cons_of_pos (hpq b hb)]
        omega
      · rw [List.countP_cons_of_neg hb, List.countP_cons]
        omega

/-- Meeting a new pair of the stock leaves fewer that have not been met. -/
theorem State.unmet_lt {stock : List Term} {s s' : State} {p : Term × Term}
    (hp : p ∈ pairs stock) (hnew : p ∉ s.met) (hmet : s'.met = p :: s.met) :
    s'.unmet stock < s.unmet stock := by
  refine countP_lt_countP (fun x hx => ?_) hp ?_ ?_
  · simp_all
  · simp [hmet]
  · simpa using hnew

/-! ### Steps -/

theorem bind_eq_next {check : Bool} {s s' : State} {v : Nat} {t : Term}
    (h : s.bind check v t = .next s') : s' = { s with bindings := s.bindings.insert v t } := by
  unfold State.bind at h
  split at h
  · cases h
  · exact (Step.next.inj h).symm

theorem Within.bind {stock : List Term} {check : Bool} {s s' : State} {v : Nat} {t : Term}
    (hs : s.Within stock) (ht : t ∈ stock) (h : s.bind check v t = .next s') :
    s'.Within stock ∧ s'.met = s.met := by
  rw [bind_eq_next h]
  refine ⟨⟨hs.pending, fun w u hw => ?_⟩, rfl⟩
  simp only [Substitution.get?_insert] at hw
  split at hw
  · exact Option.some.inj hw ▸ ht
  · exact hs.bound w u hw

/-- Solving a pair of the stock stays inside the stock and meets no further pair. -/
theorem Within.solve {stock : List Term} (hc : Term.Closed stock) {check : Bool} {s s' : State}
    {a b : Term} (hs : s.Within stock) (ha : a ∈ stock) (hb : b ∈ stock)
    (h : s.solve check a b = .next s') : s'.Within stock ∧ s'.met = s.met := by
  unfold State.solve at h
  split at h
  · exact Within.bind hs hb h
  · exact Within.bind hs ha h
  · split at h
    · rename_i f ss g ts _
      obtain rfl := Step.next.inj h
      refine ⟨⟨fun p hp => ?_, hs.bound⟩, rfl⟩
      rcases List.mem_append.mp hp with hp | hp
      · obtain ⟨h₁, h₂⟩ := List.of_mem_zip (a := p.1) (b := p.2) hp
        exact ⟨hc f ss ha _ h₁, hc g ts hb _ h₂⟩
      · exact hs.pending p hp
    · cases h

/-- A step from a state over a closed stock leads to a state over the same stock, and it
either meets a new pair or drops a pending one. -/
theorem State.fewer_of_step {stock : List Term} (hc : Term.Closed stock) {check : Bool}
    {s s' : State} (hs : s.Within stock) (h : s.step check = .next s') :
    s'.Within stock ∧
      Prod.Lex (· < ·) (· < ·) (s'.unmet stock, s'.pending.length)
        (s.unmet stock, s.pending.length) := by
  unfold State.step at h
  split at h
  · cases h
  · rename_i a b rest he
    obtain ⟨ha, hb⟩ := hs.pending (a, b) (by simp [he])
    simp only at h
    have hrest : ∀ p ∈ rest, p.1 ∈ stock ∧ p.2 ∈ stock :=
      fun p hp => hs.pending p (by simp [he, hp])
    split at h
    · obtain rfl := Step.next.inj h
      exact ⟨⟨hrest, hs.bound⟩, .right _ (by simp [he])⟩
    · rename_i hnew
      have hca := hs.chase_mem ha
      have hcb := hs.chase_mem hb
      obtain ⟨hw, hm⟩ := Within.solve hc
        (s := { s with met := _ :: s.met, pending := rest }) ⟨hrest, hs.bound⟩ hca hcb h
      exact ⟨hw, .left _ _ (State.unmet_lt (mem_pairs.mpr ⟨hca, hcb⟩)
        (fun hmem => hnew (.inr hmem)) hm)⟩

end Unification

end TreeRewriting

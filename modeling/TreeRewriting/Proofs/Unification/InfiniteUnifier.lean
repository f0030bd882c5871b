/-
TreeRewriting/Proofs/Unification/InfiniteUnifier.lean

Without the occurs check: unification over infinite trees.

Design.  The bindings in which a run ends may be cyclic, so there may be no
finite terms that satisfy them.  There are always infinite trees that do: below
a term stands what is found by chasing, one position after another
(`Substitution.unfold`).  For that a bound variable has to be chased as its term
is, which holds because no cycle consists of aliases alone.  Since unification
keeps the set of solutions, such a tree assignment solves the input, and where
two applications differ there is none.

Main result: `unify_unchecked_iff`.
-/
import TreeRewriting.Proofs.Unification.Solutions

namespace TreeRewriting

namespace Substitution

/-! ### Unfolding bindings -/

/-- What stands at a position below a term when bindings are followed. -/
def labelAt (b : Substitution) : Term → List Nat → Option Mark
  | t, [] =>
    match b.chase t with
    | .var v => some (.var v)
    | .app f ts => some (.symbol f ts.length)
  | t, i :: p =>
    match b.chase t with
    | .var _ => none
    | .app _ ts => ts[i]?.bind fun u => labelAt b u p

variable {b : Substitution} {t u : Term}

theorem labelAt_of_chase_app {f : String} {ts : List Term} (h : b.chase t = .app f ts)
    (i : Nat) (p : List Nat) : b.labelAt t (i :: p) = ts[i]?.bind (b.labelAt · p) := by
  rw [labelAt, h]

theorem labelAt_of_chase_var {v : Nat} (h : b.chase t = .var v) (p : List Nat) :
    b.labelAt t p = (InfiniteTree.var v).label p := by
  cases p with
  | nil => simp [labelAt, h, InfiniteTree.var]
  | cons i p => simp [labelAt, h, InfiniteTree.var]

theorem rooted_labelAt (b : Substitution) (t : Term) : (b.labelAt t []).isSome := by
  rw [labelAt]
  split <;> rfl

theorem branching_labelAt (b : Substitution) (t : Term) (p : List Nat) (i : Nat) :
    (b.labelAt t (p ++ [i])).isSome
      ↔ ∃ f n, b.labelAt t p = some (.symbol f n) ∧ i < n := by
  induction p generalizing t with
  | nil =>
    rcases h : b.chase t with v | ⟨f, ts⟩
    · rw [labelAt_of_chase_var h, labelAt_of_chase_var h]
      exact (InfiniteTree.var v).branching [] i
    · rw [List.nil_append, labelAt_of_chase_app h, labelAt, h]
      exact InfiniteTree.branching_symbol b.rooted_labelAt f ts i
  | cons j p ih =>
    rcases h : b.chase t with v | ⟨f, ts⟩
    · rw [labelAt_of_chase_var h, labelAt_of_chase_var h]
      exact (InfiniteTree.var v).branching (j :: p) i
    · rw [List.cons_append, labelAt_of_chase_app h, labelAt_of_chase_app h]
      rcases ts[j]? with - | u
      · simp
      · exact ih u

/-- The tree below a term when bindings are followed. -/
def unfold (b : Substitution) (t : Term) : InfiniteTree where
  label := b.labelAt t
  rooted := b.rooted_labelAt t
  branching := b.branching_labelAt t

theorem unfold_of_chase_app {f : String} {ts : List Term} (h : b.chase t = .app f ts) :
    b.unfold t = .node f (ts.map b.unfold) := by
  apply InfiniteTree.ext
  funext p
  cases p with
  | nil => simp [unfold, labelAt, h]
  | cons i p =>
    show b.labelAt t (i :: p) = _
    rw [labelAt_of_chase_app h, InfiniteTree.label_node_cons, List.getElem?_map]
    rcases ts[i]? with - | u <;> rfl

/-- What chasing does not tell apart unfolds alike. -/
theorem unfold_congr (h : b.chase t = b.chase u) : b.unfold t = b.unfold u := by
  apply InfiniteTree.ext
  funext p
  show b.labelAt t p = b.labelAt u p
  cases p with
  | nil => rw [labelAt, labelAt, h]
  | cons i p => rw [labelAt, labelAt, h]

/-- Under the assignment that unfolds variables a term denotes its unfolding. -/
theorem denote_unfold (b : Substitution) (t : Term) :
    t.denote (fun v => b.unfold (.var v)) = b.unfold t := by
  induction t with
  | var v => rfl
  | app f ts ih =>
    rw [Term.denote_app, unfold_of_chase_app (b.chase_app f ts)]
    congr 1
    exact List.map_congr_left ih

end Substitution

namespace Unification

/-- Without a cycle of aliases the bindings are satisfied by infinite trees. -/
theorem satisfies_unfold {b : Substitution} (hb : b.NoAliasCycle) :
    Satisfies (fun v => b.unfold (.var v)) b := by
  intro v t hv
  rw [b.denote_unfold]
  exact Substitution.unfold_congr (Substitution.chase_var hb hv)

/-- **Without the occurs check unification decides whether there is a unifier over infinite
trees**: it succeeds exactly when the lists have equal length and some assignment of
infinite trees makes both denote the same trees, pair by pair. -/
theorem unify_unchecked_iff (left right : List Term) :
    (∃ b, unify false left right = .ok b) ↔
      left.length = right.length ∧ ∃ ρ, Equalizes ρ (left.zip right) := by
  constructor
  · rintro ⟨b, hb⟩
    obtain ⟨hlen, s, hm, hp, -⟩ := unify_eq_ok_iff.mp hb
    have hs := noAliasCycle_of_moves hm Substitution.acyclic_empty.noAliasCycle
    exact ⟨hlen, _, (equalizes_iff_satisfies hm hp).mpr (satisfies_unfold hs)⟩
  · rintro ⟨hlen, ρ, hρ⟩
    rcases h : unify false left right with c | b
    · obtain ⟨s, hm, hstuck⟩ := stuck_of_unify_eq_error hlen h
      have hs := solved_of_moves hm hρ
      -- the clash can only be one of symbols
      cases c with
      | symbols f g => exact absurd hs hstuck.not_solved
      | occurs v t =>
        cases hstuck with
        | occurs front new assigns checked found => cases checked
      | _ => cases hstuck
    · exact ⟨b, rfl⟩

end Unification

end TreeRewriting

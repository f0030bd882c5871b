/-
TreeRewriting/Proofs/Unification/Variant.lean

Unifying terms that differ in their variables only.

Design.  Where both sides of every pair have one skeleton, a run only ever meets
two variables, or two applications of one symbol to equally many arguments.  So
it binds variables to variables (`Substitution.OnlyAliases`), and following such
bindings keeps the skeleton, whichever variables are on the way.  A move keeps
all this (`State.Move.aligned`), and where it holds no step fails: the symbols
agree, and a variable that is not bound is not reached from another one
(`State.Aligned.not_stuck`).

That the renaming of one side to the other is one to one is not needed: what the
walk of loose equality finds out beyond the skeletons plays no part.

Main result: `Literal.unify_of_structurallyEqual`.
-/
import TreeRewriting.Proofs.Node.Identity
import TreeRewriting.Proofs.Unification.Solvability

namespace TreeRewriting

/-- What has the skeleton of a variable is one. -/
theorem Term.skeleton_eq_var_iff {t : Term} : t.skeleton = .var 0 ↔ ∃ v, t = .var v := by
  cases t <;> simp

/-! ### Bindings of variables to variables -/

namespace Substitution

variable {s : Substitution} {v w : Nat} {t u : Term}

/-- Every bound variable is an alias. -/
def OnlyAliases (s : Substitution) : Prop := ∀ v t, s.get? v = some t → t.skeleton = .var 0

theorem OnlyAliases.erase (h : s.OnlyAliases) (v : Nat) : (s.erase v).OnlyAliases :=
  fun w t hw => h w t (s.erase_le v w t hw)

theorem OnlyAliases.skeleton_chase (h : s.OnlyAliases) (t : Term) :
    (s.chase t).skeleton = t.skeleton := by
  fun_induction chase s t with
  | case1 s v t hv ih => rw [ih (h.erase v), h v t hv, Term.skeleton_var]
  | case2 => rfl
  | case3 => rfl

theorem OnlyAliases.skeleton_expand (h : s.OnlyAliases) (t : Term) :
    (s.expand t).skeleton = t.skeleton := by
  fun_induction expand s t with
  | case1 s v t hv ih => rw [ih (h.erase v), h v t hv, Term.skeleton_var]
  | case2 => rfl
  | case3 s f ts ih =>
    rw [Term.skeleton_app, Term.skeleton_app, List.map_map]
    congr 1
    apply List.map_congr_left
    intro t ht
    exact ih t ht h

theorem OnlyAliases.resolve (h : s.OnlyAliases) : s.resolve.OnlyAliases := by
  intro v t hv
  obtain ⟨-, rfl⟩ := get?_resolve_cases hv
  rw [h.skeleton_expand, Term.skeleton_var]

end Substitution

namespace Unification

/-! ### Runs on terms of one skeleton -/

/-- Both sides of every pair have one skeleton. -/
def SameSkeletons (pairs : List (Term × Term)) : Prop :=
  ∀ p ∈ pairs, p.1.skeleton = p.2.skeleton

/-- Of two terms of one skeleton that are assigned both are variables. -/
theorem Assigns.skeleton_eq {a b t : Term} {v : Nat} (h : Assigns a b v t)
    (hab : a.skeleton = b.skeleton) : t.skeleton = .var 0 := by
  cases h with
  | left v t => exact hab.symm
  | right f ts v => simp at hab

namespace State

/-- What is pending has the same skeletons on both sides, and variables are bound to
variables. -/
structure Aligned (s : State) : Prop where
  pending : SameSkeletons s.pending
  bound : s.bindings.OnlyAliases

variable {check : Bool} {s s' : State}

theorem Aligned.front (h : s.Aligned) {a b a' b' : Term} {rest : List (Term × Term)}
    (front : s.Front a b a' b' rest) : a'.skeleton = b'.skeleton ∧ SameSkeletons rest := by
  obtain ⟨hp, rfl, rfl⟩ := front
  have hpending := h.pending
  rw [hp] at hpending
  obtain ⟨hab, hrest⟩ := List.forall_mem_cons.mp hpending
  rw [h.bound.skeleton_chase, h.bound.skeleton_chase]
  exact ⟨hab, hrest⟩

/-- A move keeps all this. -/
theorem Move.aligned (h : Move check s s') (hs : s.Aligned) : s'.Aligned := by
  cases h with
  | drop front known => exact ⟨(hs.front front).2, hs.bound⟩
  | bind front new assigns free =>
    obtain ⟨hab, hrest⟩ := hs.front front
    refine ⟨hrest, ?_⟩
    intro w u hw
    rcases Substitution.get?_insert_cases hw with ⟨rfl, rfl⟩ | hw
    · exact assigns.skeleton_eq hab
    · exact hs.bound w u hw
  | split front new arity =>
    obtain ⟨hab, hrest⟩ := hs.front front
    rw [Term.skeleton_app, Term.skeleton_app] at hab
    refine ⟨?_, hs.bound⟩
    intro p hp
    rcases List.mem_append.mp hp with hp | hp
    · exact forall_zip_of_map_eq (Term.app.inj hab).2 p hp
    · exact hrest p hp

/-- Where skeletons agree no step fails. -/
theorem Aligned.not_stuck {c : Clash} (h : s.Aligned) (hb : s.bindings.NoAliasCycle) :
    ¬ Stuck check s c := by
  intro hstuck
  cases hstuck with
  | occurs front new assigns checked found =>
    obtain ⟨w, rfl⟩ := Term.skeleton_eq_var_iff.mp (assigns.skeleton_eq (h.front front).1)
    -- the other variable is not bound, so from it nothing else is reached
    have hw := (front.unbound assigns hb).2 w rfl
    rw [Substitution.reaches_var_of_none hw, beq_iff_eq] at found
    exact assigns.ne_var (fun e => new (.inl e)) found
  | symbols front new differ =>
    obtain ⟨hab, -⟩ := h.front front
    rw [Term.skeleton_app, Term.skeleton_app] at hab
    obtain ⟨hfg, hargs⟩ := Term.app.inj hab
    exact differ ⟨hfg, by simpa using congrArg List.length hargs⟩

end State

theorem aligned_of_moves {check : Bool} {s s' : State} (h : Moves check s s') (hs : s.Aligned) :
    s'.Aligned := by
  induction h with
  | refl => exact hs
  | tail _ hmove ih => exact hmove.aligned ih

/-- Lists of terms of one skeleton unify, with either setting of the occurs check and with the
same answer, and variables are bound to variables. -/
theorem unify_of_skeleton_eq {left right : List Term}
    (h : left.map Term.skeleton = right.map Term.skeleton) :
    ∃ s, (∀ check, unify check left right = .ok s) ∧ s.OnlyAliases := by
  have hlength : left.length = right.length := by simpa using congrArg List.length h
  have hstart : (start left right).Aligned := ⟨forall_zip_of_map_eq h, nofun⟩
  rcases hs : unify true left right with c | s
  · obtain ⟨s, hm, hstuck⟩ := stuck_of_unify_eq_error hlength hs
    have hb := noAliasCycle_of_moves hm Substitution.acyclic_empty.noAliasCycle
    exact absurd hstuck ((aligned_of_moves hm hstart).not_stuck hb)
  · refine ⟨s, ?_, ?_⟩
    · intro check
      cases check with
      | true => exact hs
      | false => exact (unify_checked_eq_ok_iff.mp hs).1
    · obtain ⟨-, state, hm, -, rfl⟩ := unify_eq_ok_iff.mp hs
      exact (aligned_of_moves hm hstart).bound.resolve

end Unification

namespace Literal

variable {a b : Literal}

theorem skeleton_eq_of_structurallyEqual {strict : Bool} (h : a.structurallyEqual strict b = true) :
    a.skeleton = b.skeleton := by
  obtain ⟨r, hr⟩ := Option.isSome_iff_exists.mp h
  exact ((Renaming.exchanges_literals strict a b _ _).mp hr).1

/-- **Literals that are equal up to renaming unify by renaming.**  They do so with either
setting of the occurs check and with the same answer, which binds variables to variables only.
The two may have variables in common, in other places. -/
theorem unify_of_structurallyEqual (h : a.structurallyEqual false b = true) :
    ∃ s, (∀ check, a.unify check b = .ok s) ∧
      ∀ v t, s.get? v = some t → ∃ w, t = .var w := by
  obtain ⟨hname, hargs, -⟩ := Literal.mk.inj (skeleton_eq_of_structurallyEqual h)
  obtain ⟨s, hs, haliases⟩ := Unification.unify_of_skeleton_eq hargs
  have harity : a.args.length = b.args.length := by simpa using congrArg List.length hargs
  refine ⟨s, fun check => unify_eq_ok_iff.mpr ⟨hname, harity, hs check⟩, fun v t hv => ?_⟩
  exact Term.skeleton_eq_var_iff.mp (haliases v t hv)

/-- Two literals with the same variables in other places: P(X0, f(X1, X2), X1) and
P(X1, f(X2, X0), X2). -/
theorem unify_of_structurallyEqual_cycle :
    structurallyEqual false ⟨"P", [.var 0, .app "f" [.var 1, .var 2], .var 1], false⟩
        ⟨"P", [.var 1, .app "f" [.var 2, .var 0], .var 2], false⟩ = true ∧
      ∃ s, (∀ check, unify ⟨"P", [.var 0, .app "f" [.var 1, .var 2], .var 1], false⟩ check
          ⟨"P", [.var 1, .app "f" [.var 2, .var 0], .var 2], false⟩ = .ok s) ∧
        ∀ v t, s.get? v = some t → ∃ w, t = .var w := by
  have h : structurallyEqual false ⟨"P", [.var 0, .app "f" [.var 1, .var 2], .var 1], false⟩
      ⟨"P", [.var 1, .app "f" [.var 2, .var 0], .var 2], false⟩ = true := by decide
  exact ⟨h, unify_of_structurallyEqual h⟩

end Literal

end TreeRewriting

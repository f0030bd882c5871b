/-
TreeRewriting/Proofs/Unification/OccursCheck.lean

What the occurs check changes.

Design.  With and without the check a run makes the same moves for as long as no
cycle is formed.  A move with the check forms none (`State.Move.acyclic`), and a
move without it that forms none is one that the check lets pass
(`State.Move.checked`).  No move takes a binding back, so a cycle that has been
formed is there at the end, and the runs with the check are the runs without it
that end in acyclic bindings (`moves_checked_iff`).

Whether bindings are acyclic can be seen in their resolution: it is idempotent
exactly then.

Main result: `unify_checked_eq_filter`.
-/
import TreeRewriting.Proofs.Unification.Run

namespace TreeRewriting.Unification

open Relation

namespace State

variable {s s' : State}

/-- With the check a move forms no cycle. -/
theorem Move.acyclic (h : Move true s s') (hs : s.bindings.Acyclic) : s'.bindings.Acyclic := by
  cases h with
  | drop => exact hs
  | bind front new assigns free =>
    obtain ⟨hv, -⟩ := front.unbound assigns hs.noAliasCycle
    apply hs.insert
    intro w hw hwv
    have hfound := (Substitution.reaches_iff hv).mpr ⟨w, hw, hwv⟩
    rw [free rfl] at hfound
    cases hfound
  | split => exact hs

/-- What the check lets pass is a move without it too. -/
theorem Move.unchecked (h : Move true s s') : Move false s s' := by
  cases h with
  | drop front known => exact .drop front known
  | bind front new assigns free =>
    apply Move.bind front new assigns
    intro hc
    cases hc
  | split front new arity => exact .split front new arity

/-- The check lets a move pass that forms no cycle. -/
theorem Move.checked (h : Move false s s') (hs : s.bindings.NoAliasCycle)
    (hs' : s'.bindings.Acyclic) : Move true s s' := by
  cases h with
  | drop front known => exact .drop front known
  | bind front new assigns free =>
    apply Move.bind front new assigns
    intro _
    obtain ⟨hv, -⟩ := front.unbound assigns hs
    apply Bool.eq_false_iff.mpr
    intro hfound
    exact Substitution.not_acyclic_insert hv ((Substitution.reaches_iff hv).mp hfound) hs'
  | split front new arity => exact .split front new arity

end State

/-- With the check no cycle is formed along a run. -/
theorem acyclic_of_moves {s s' : State} (h : Moves true s s') (hs : s.bindings.Acyclic) :
    s'.bindings.Acyclic := by
  induction h with
  | refl => exact hs
  | tail _ hmove ih => exact hmove.acyclic ih

/-- The runs with the check are those without it that end in acyclic bindings. -/
theorem moves_checked_iff {s s' : State} (hs : s.bindings.Acyclic) :
    Moves true s s' ↔ Moves false s s' ∧ s'.bindings.Acyclic := by
  constructor
  · intro h
    exact ⟨ReflTransGen.mono (fun _ _ hmove => hmove.unchecked) s s' h, acyclic_of_moves h hs⟩
  · rintro ⟨h, hs'⟩
    induction h with
    | refl => exact .refl
    | @tail t u hm hmove ih =>
      -- the bindings before the last move are among those after it
      have ht := noAliasCycle_of_moves hm hs.noAliasCycle
      exact (ih (hs'.of_le (hmove.le ht))).tail (hmove.checked ht hs')

/-- With the check lists have the unifiers that they have without it and that are
idempotent. -/
theorem unify_checked_eq_ok_iff {left right : List Term} {b : Substitution} :
    unify true left right = .ok b ↔ unify false left right = .ok b ∧ b.isIdempotent = true := by
  have hstart : (start left right).bindings.Acyclic := Substitution.acyclic_empty
  rw [unify_eq_ok_iff, unify_eq_ok_iff]
  constructor
  · rintro ⟨hlen, s, hm, hp, rfl⟩
    obtain ⟨hm', hs⟩ := (moves_checked_iff hstart).mp hm
    exact ⟨⟨hlen, s, hm', hp, rfl⟩, Substitution.isIdempotent_resolve_iff.mpr hs⟩
  · rintro ⟨⟨hlen, s, hm, hp, rfl⟩, hidem⟩
    have hs := Substitution.isIdempotent_resolve_iff.mp hidem
    exact ⟨hlen, s, (moves_checked_iff hstart).mpr ⟨hm, hs⟩, hp, rfl⟩

/-- **The occurs check is a filter**: with it unification returns what it returns without
it, when that is idempotent, and fails otherwise. -/
theorem unify_checked_eq_filter (left right : List Term) :
    (unify true left right).toOption
      = (unify false left right).toOption.filter Substitution.isIdempotent := by
  have toOption_eq_some : ∀ (x : Except Clash Substitution) (b : Substitution),
      x.toOption = some b ↔ x = .ok b := by
    intro x b
    cases x <;> simp [Except.toOption]
  ext b
  rw [toOption_eq_some, unify_checked_eq_ok_iff, Option.filter_eq_some_iff, toOption_eq_some]

end TreeRewriting.Unification

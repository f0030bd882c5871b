/-
TreeRewriting/Proofs/Session/StopReason.lean

What the reason for which a session stopped says about the tree it left and the
passes it made.

Design.  A session stops as saturated only after a pass that rewrites nothing
and runs to its end, and such a pass has looked at every location; it stops at
its limit only at a rule that still applies, and between the match and the end
the tree is not touched.  Both are read off the account of the session
(`passesFrom_account`), which holds under either strategy.

Nothing in a session bounds the number of its passes.  Under the fixpoint
strategy there are at most two, whatever the rules do to the tree: the first
makes all the rewrites of the loop that starts over, and leaves nothing to match
unless it ends early (`passesFrom_fixpoint_eq_session`).

Main results: `stopReason_honest`, `fixpoint_passes`.
-/
import TreeRewriting.Proofs.Session.Refinement
import TreeRewriting.Table.Logic

namespace TreeRewriting.Session

/-- **The reason for a stop is honest and a saturated tree is stable.**  A session that
stops by itself has made no more rewrites than its limit.  Saturated, it has left a tree in
which no rule applies at any location, and another session on that tree, under either
strategy and any limit, takes one pass without a rewrite and is saturated too.  At its limit
it has made exactly so many rewrites, and some rule still applies at some location. -/
theorem stopReason_honest (config : Config) (rules : RuleSet) (n : Node) {reason : StopReason}
    (h : (run config rules n).ending = .stopped reason) :
    let s := run config rules n
    s.rewrites ≤ config.limit ∧
      (reason = .saturated →
        (∀ p m, s.after.at? p = some m → ∀ r ∈ rules.rules, r.applies m = false) ∧
          ∀ again : Config,
            run again rules s.after = ⟨s.after, s.after, [[]], .stopped .saturated⟩) ∧
      (reason = .iterationLimit →
        s.rewrites = config.limit ∧
          ∃ p m, s.after.at? p = some m ∧ ∃ r ∈ rules.rules, r.applies m = true) := by
  intro s
  have haccount : Account config.strategy rules config.limit n s.after s.firings s.ending :=
    passesFrom_account config.strategy rules config.limit n
  have hend : s.ending = .stopped reason := h
  rw [hend] at haccount
  obtain ⟨hwithin, hsaturated, hlimit⟩ := haccount.of_stopped
  refine ⟨hwithin, ?saturated, ?limit⟩
  case saturated =>
    intro hreason
    have hclear := hsaturated hreason
    exact ⟨RuleSet.firstRedex?_eq_none_iff_applies.mp hclear,
      fun again => passesFrom_of_clear hclear again.strategy again.limit⟩
  case limit =>
    intro hreason
    obtain ⟨hspent, p, x, hx⟩ := hlimit hreason
    obtain ⟨hp, hr, hfind⟩ := RuleSet.applies_of_redexAt? hx
    refine ⟨hspent, p, x.subtree, hp, x.rule, hr, ?_⟩
    rw [Rule.applies, hfind]
    rfl

/-- Of four negations one pair cancels within a limit of one, and the other pair is left. -/
theorem stopReason_honest_negations :
    let rules := RuleSet.ofList [Logic.notNot]
    let s := run ⟨1, .fixpoint⟩ rules (.not (.not (.not (.not (.bool true)))))
    s.ending = .stopped .iterationLimit ∧ s.rewrites = 1 ∧
      ∃ p m, s.after.at? p = some m ∧ ∃ r ∈ rules.rules, r.applies m = true := by
  have hend : (run ⟨1, .fixpoint⟩ (.ofList [Logic.notNot])
      (.not (.not (.not (.not (.bool true)))))).ending = .stopped .iterationLimit :=
    (passesFrom_fixpoint _ 1 _).2.2
  exact ⟨hend, (stopReason_honest _ _ _ hend).2.2 rfl⟩

/-- **Under the fixpoint strategy at most one pass rewrites anything.**  A session that stops
by itself makes a single pass when it rewrites nothing or stops at its limit, and two passes
otherwise.  The second rewrites nothing, because no rule applies at any location of the tree
that the first has left. -/
theorem fixpoint_passes (rules : RuleSet) (limit : Nat) (n : Node) {reason : StopReason}
    (h : (run ⟨limit, .fixpoint⟩ rules n).ending = .stopped reason) :
    let s := run ⟨limit, .fixpoint⟩ rules n
    (s.rewrites = 0 ∨ reason = .iterationLimit → s.passes = [s.firings]) ∧
      (¬ (s.rewrites = 0 ∨ reason = .iterationLimit) →
        s.passes = [s.firings, []] ∧
          ∀ p m, s.after.at? p = some m → ∀ r ∈ rules.rules, r.applies m = false) := by
  intro s
  have hs : s = (restart rules limit n).session n := passesFrom_fixpoint_eq_session rules limit n
  have hend : s.ending = .stopped reason := h
  have haccount : Account .fixpoint rules limit n s.after s.firings s.ending :=
    passesFrom_account .fixpoint rules limit n
  generalize restart rules limit n = r at hs
  obtain ⟨m, fs, ending⟩ := r
  rw [hs] at hend
  obtain rfl : ending = .stopped reason := hend
  have hfirings : s.firings = fs := by rw [hs, Restart.firings_session]
  rw [hs, Restart.firings_session] at haccount
  have hcount : s.rewrites = 0 ↔ fs = [] := by rw [rewrites, hfirings, List.length_eq_zero_iff]
  rw [hcount, hfirings]
  cases haccount with
  | saturated _ _ clear =>
    have hclear := RuleSet.firstRedex?_eq_none_iff_applies.mp clear
    have hpasses : s.passes = if fs.isEmpty then [fs] else [fs, []] := congrArg passes hs
    rw [hpasses]
    constructor
    · rintro (rfl | ⟨⟨⟩⟩)
      rfl
    · intro hchanged
      have hne : fs ≠ [] := fun he => hchanged (.inl he)
      exact ⟨by simp [hne], hs ▸ hclear⟩
  | singlePass _ _ once => cases once
  | exhausted => exact ⟨fun _ => congrArg passes hs, fun hreason => absurd (.inr rfl) hreason⟩

/-- Of four negations two pairs cancel in the first pass; the second pass finds nothing. -/
theorem fixpoint_passes_negations :
    let rules := RuleSet.ofList [Logic.notNot]
    let s := run ⟨2, .fixpoint⟩ rules (.not (.not (.not (.not (.bool true)))))
    s.ending = .stopped .saturated ∧ s.rewrites = 2 ∧ s.passes = [s.firings, []] := by
  have hend : (run ⟨2, .fixpoint⟩ (.ofList [Logic.notNot])
      (.not (.not (.not (.not (.bool true)))))).ending = .stopped .saturated :=
    (passesFrom_fixpoint _ 2 _).2.2
  have hrewrites : (run ⟨2, .fixpoint⟩ (.ofList [Logic.notNot])
      (.not (.not (.not (.not (.bool true)))))).rewrites = 2 :=
    congrArg List.length (passesFrom_fixpoint _ 2 _).2.1
  refine ⟨hend, hrewrites, ((fixpoint_passes _ _ _ hend).2 ?_).1⟩
  rw [hrewrites]
  simp

end TreeRewriting.Session

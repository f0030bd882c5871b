/-
TreeRewriting/Proofs/Session/Selection.lean

Sessions with a selection of the rules.

Design.  A rule that is not the first to match does not matter, and one that
matches nowhere does not matter either.  So if a selection keeps the rule of a
redex, that is a redex of the selection, with the same rule and binding, however
many of the rules behind it have matched as well and are gone
(`firstMatch?_filter`); and where nothing matched, nothing matches.  A session
is a run of one of two loops, which look at redexes only.  One that comes to its
end is therefore the same with any selection that keeps what has fired.

One that stops at its limit is not: the rule that still applies has not fired,
and without it the session may be over, or another rule may be next.

Main result: `Session.run_without_unfired`.
-/
import TreeRewriting.Proofs.Session.Refinement
import TreeRewriting.Proofs.Session.Tour
import TreeRewriting.Table.Logic

namespace TreeRewriting

variable {rules : RuleSet} {keep : Rule → Bool} {here : Location} {n m : Node}
variable {fs : List Firing}

/-! ### Redexes of a selection -/

namespace RuleSet

/-- The first rule that matches stays the first when it is kept. -/
theorem firstMatch?_filter {r : Rule} {b : Binding} (h : rules.firstMatch? n = some (r, b))
    (hkeep : keep r = true) : (rules.filter keep).firstMatch? n = some (r, b) := by
  obtain ⟨pre, q, post, hrules, hq, hpre⟩ := List.findSome?_eq_some_iff.mp h
  obtain ⟨c, -, hqr⟩ := Option.map_eq_some_iff.mp hq
  obtain rfl : q = r := congrArg Prod.fst hqr
  have hfilter : (rules.filter keep).rules = pre.filter keep ++ q :: post.filter keep := by
    rw [filter, hrules, List.filter_append, List.filter_cons_of_pos hkeep]
  exact List.findSome?_eq_some_iff.mpr
    ⟨_, q, _, hfilter, hq, fun a ha => hpre a (List.mem_filter.mp ha).1⟩

theorem firstMatch?_filter_of_none (h : rules.firstMatch? n = none) :
    (rules.filter keep).firstMatch? n = none :=
  firstMatch?_eq_none_iff.mpr fun r hr =>
    firstMatch?_eq_none_iff.mp h r (List.mem_filter.mp hr).1

/-- A redex whose rule is kept is one of the selection. -/
theorem redexAt?_filter {p : Location} {x : Redex} (h : rules.redexAt? n p = some x)
    (hkeep : keep x.rule = true) : (rules.filter keep).redexAt? n p = some x := by
  obtain ⟨hlocation, hp, hmatch⟩ := redexAt?_eq_some_iff.mp h
  exact redexAt?_eq_some_iff.mpr ⟨hlocation, hp, firstMatch?_filter hmatch hkeep⟩

theorem redexAt?_filter_of_none {p : Location} (h : rules.redexAt? n p = none) :
    (rules.filter keep).redexAt? n p = none := by
  rw [redexAt?, Option.bind_eq_none_iff] at h ⊢
  intro m hm
  exact Option.map_eq_none_iff.mpr (firstMatch?_filter_of_none (Option.map_eq_none_iff.mp (h m hm)))

theorem firstRedex?_filter {x : Redex} (h : rules.firstRedex? n = some x)
    (hkeep : keep x.rule = true) : (rules.filter keep).firstRedex? n = some x := by
  obtain ⟨before, p, behind, hlocations, hp, hclear⟩ := List.findSome?_eq_some_iff.mp h
  exact List.findSome?_eq_some_iff.mpr ⟨before, p, behind, hlocations, redexAt?_filter hp hkeep,
    fun q hq => redexAt?_filter_of_none (hclear q hq)⟩

theorem firstRedex?_filter_of_none (h : rules.firstRedex? n = none) :
    (rules.filter keep).firstRedex? n = none :=
  firstRedex?_eq_none_iff.mpr fun p =>
    redexAt?_filter_of_none (firstRedex?_eq_none_iff.mp h p)

end RuleSet

/-! ### The loops -/

/-- All rules of the names under which something was rewritten are kept. -/
def KeepsFired (keep : Rule → Bool) (rules : RuleSet) (fs : List Firing) : Prop :=
  ∀ f ∈ fs, ∀ r ∈ rules.rules, r.name = f.rule → keep r = true

namespace KeepsFired

theorem tail {f : Firing} (h : KeepsFired keep rules (f :: fs)) : KeepsFired keep rules fs :=
  fun g hg => h g (List.mem_cons_of_mem f hg)

/-- The rule of the redex that is rewritten first is kept. -/
theorem keep_rule {x : Redex} {p : Location} (h : KeepsFired keep rules (x.firing here :: fs))
    (hx : rules.redexAt? n p = some x) : keep x.rule = true :=
  h (x.firing here) List.mem_cons_self x.rule (RuleSet.applies_of_redexAt? hx).2.1 rfl

end KeepsFired

/-- The loop that starts over makes the same rounds with a selection that keeps their rules. -/
theorem Chain.filter (h : Chain rules here n fs m) (hkeep : KeepsFired keep rules fs) :
    Chain (rules.filter keep) here n fs m := by
  induction h with
  | nil n => exact .nil n
  | @cons n m fs x first done _ ih =>
    obtain ⟨p, -, hp⟩ := List.exists_of_findSome?_eq_some first
    have hfirst := RuleSet.firstRedex?_filter first (hkeep.keep_rule hp)
    exact .cons hfirst done (ih hkeep.tail)

/-- The loop over locations goes the same way with a selection that keeps what it fires, if it
comes to its end. -/
theorem Toured.filter {budget : Nat} {ps : List Location}
    (h : Toured rules here budget n ps m fs none) (hkeep : KeepsFired keep rules fs) :
    Toured (rules.filter keep) here budget n ps m fs none := by
  generalize hfinished : (none : Option Halt) = halt at h
  induction h with
  | nil budget n => exact .nil budget n
  | pass found clear _ ih =>
    exact .pass found (RuleSet.redexAt?_filter_of_none clear) (ih hkeep hfinished)
  | fire redex done _ ih =>
    exact .fire (RuleSet.redexAt?_filter redex (hkeep.keep_rule redex)) done
      (ih hkeep.tail hfinished)
  | exhausted => cases hfinished
  | faulted => cases hfinished

/-! ### Sessions -/

namespace Session

/-- A session that stops by itself before its limit is the same with any selection of the
rules that keeps those that have fired. -/
theorem run_filter (config : Config) {reason : StopReason}
    (h : (run config rules n).ending = .stopped reason) (hreason : reason ≠ .iterationLimit)
    (hkeep : KeepsFired keep rules (run config rules n).firings) :
    run config (rules.filter keep) n = run config rules n := by
  obtain ⟨limit, strategy⟩ := config
  cases strategy with
  | fixpoint =>
    have haccount : Account .fixpoint rules limit n _ _ (run ⟨limit, .fixpoint⟩ rules n).ending :=
      passesFrom_account .fixpoint rules limit n
    rw [h] at haccount
    obtain rfl := haccount.saturated_of_stopped hreason
    obtain ⟨hchain, hwithin, hclear⟩ := run_saturated_iff.mp ⟨rfl, rfl, h⟩
    have hloop := restart_saturated_iff.mpr ⟨hchain, hwithin, hclear⟩
    have hloop' := restart_saturated_iff.mpr
      ⟨hchain.filter hkeep, hwithin, RuleSet.firstRedex?_filter_of_none hclear⟩
    calc run ⟨limit, .fixpoint⟩ (rules.filter keep) n
        = (restart (rules.filter keep) limit n).session n :=
          passesFrom_fixpoint_eq_session _ limit n
      _ = (restart rules limit n).session n := by rw [hloop, hloop']
      _ = run ⟨limit, .fixpoint⟩ rules n := (passesFrom_fixpoint_eq_session rules limit n).symm
  | singlePass =>
    obtain ⟨⟨m, fs, halt⟩, htoured, -⟩ := passesFrom_singlePass rules limit n
    have hs := run_singlePass_of_toured htoured
    rw [hs, Tour.firings_session] at hkeep
    rw [hs] at h
    -- it is not at its limit and not at a fault, so the loop has come to its end
    rcases halt with - | - | ⟨attempt, e⟩
    · rw [hs, run_singlePass_of_toured (htoured.filter hkeep)]
    · cases h
      exact absurd rfl hreason
    · cases h

/-- **Rules that did not fire do not matter.**  A session that stops by itself before its
limit is the same without the rules of a name under which nothing was rewritten: it makes the
same rewrites, leaves the same tree, and all that is read off its history is the same. -/
theorem run_without_unfired (config : Config) (rules : RuleSet) (n : Node) {reason : StopReason}
    (h : (run config rules n).ending = .stopped reason) (hreason : reason ≠ .iterationLimit)
    {name : String} (hname : (run config rules n).fired name = 0) :
    run config (rules.without name) n = run config rules n := by
  refine run_filter config h hreason ?_
  intro f hf r _ hr
  have hother : ¬ (f.rule == name) = true := List.countP_eq_zero.mp hname f hf
  rw [← hr] at hother
  simpa using hother

/-- A conjunction of truth with itself is simplified by the rule for truth; the one for equal
operands matches there too, and does not matter. -/
theorem run_without_unfired_conjunction :
    let rules := RuleSet.ofList [Logic.andTrue, Logic.andIdempotent]
    let t : Node := .and (.bool true) (.bool true)
    (run ⟨2, .fixpoint⟩ rules t).ending = .stopped .saturated ∧
      (run ⟨2, .fixpoint⟩ rules t).fired "and-idempotent" = 0 ∧
      run ⟨2, .fixpoint⟩ (rules.without "and-idempotent") t = run ⟨2, .fixpoint⟩ rules t := by
  have hend : (run ⟨2, .fixpoint⟩ (.ofList [Logic.andTrue, Logic.andIdempotent])
      (.and (.bool true) (.bool true))).ending = .stopped .saturated :=
    (passesFrom_fixpoint _ 2 _).2.2
  have hfired : (run ⟨2, .fixpoint⟩ (.ofList [Logic.andTrue, Logic.andIdempotent])
      (.and (.bool true) (.bool true))).fired "and-idempotent" = 0 :=
    congrArg (List.countP fun f : Firing => f.rule == "and-idempotent")
      (passesFrom_fixpoint _ 2 _).2.1
  exact ⟨hend, hfired, run_without_unfired ⟨2, .fixpoint⟩ _ _ hend (by decide) hfired⟩

end Session

end TreeRewriting

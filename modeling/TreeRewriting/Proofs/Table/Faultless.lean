/-
TreeRewriting/Proofs/Table/Faultless.lean

The rules of the tables never fault.

Design.  What an action may do depends on what it has done before, and whether
it may at all depends on the match.  Rule by rule it has been said what the
action leaves where the rule fits, and that is a tree and no fault; the guard
matters for resolution alone, whose action computes the unifier once more.
A session faults only where the action of a rule that matches does, so over
these rules it stops by itself (`Session.stopped_of_faultless`).

Main result: `Table.rules_never_fault`.
-/
import TreeRewriting.Proofs.Session.Trail
import TreeRewriting.Proofs.Table.Contraction

namespace TreeRewriting

/-- Wherever the rule matches, its action ends without a fault. -/
def Rule.Faultless (r : Rule) : Prop :=
  ∀ n b, r.find? n = some b → (r.rewrite n b).fault = none

/-- A session over rules that never fault stops by itself. -/
theorem Session.stopped_of_faultless {rules : RuleSet} (h : ∀ r ∈ rules.rules, r.Faultless)
    (config : Config) (n : Node) : ∃ reason, (run config rules n).ending = .stopped reason := by
  have haccount : Account config.strategy rules config.limit n _ _ (run config rules n).ending :=
    passesFrom_account config.strategy rules config.limit n
  rcases hend : (run config rules n).ending with reason | ⟨attempt, e⟩
  · exact ⟨reason, rfl⟩
  · -- a fault would be that of a rule where it matches
    rw [hend] at haccount
    obtain ⟨m, p, x, hredex, hfault⟩ := haccount.of_faulted
    obtain ⟨-, hr, hfind⟩ := RuleSet.applies_of_redexAt? hredex
    have hnone : x.outcome.fault = none := h x.rule hr x.subtree x.binding hfind
    cases hnone.symm.trans hfault

namespace Table

/-- No rule of the tables faults where it matches. -/
theorem Listed.faultless {r : Rule} (h : Listed r) : r.Faultless := by
  intro n b hfind
  obtain ⟨m, hm, -⟩ := h.contracts (Rule.fits_of_find? hfind).1 (.inl hfind)
  rw [hm, Outcome.fault_done]

/-- The places that resolution looks up for its two literals are within the clauses that it
takes and removes them from. -/
def PlacesInRange (check : Bool) (n : Node) (b : Binding) : Prop :=
  let rule := Resolution.rule check
  let s := Scope.enter rule.name rule.pattern b n
  ∃ k l ls ms s' s'', s.childIndex "b" = .ok k ∧ s.childIndex "d" = .ok l ∧
    s.take "a" = .ok (.clause ls, s') ∧ s'.take "c" = .ok (.clause ms, s'') ∧
    k < ls.length ∧ l < ms.length

theorem placesInRange_of_find? {check : Bool} {n : Node} {b : Binding}
    (h : (Resolution.rule check).find? n = some b) : PlacesInRange check n b := by
  obtain ⟨c, -, rfl, -⟩ := Resolution.unify_of_find? h
  exact ⟨c.k, c.l, c.ls, c.ms, _, _, Resolution.childIndex_left c, Resolution.childIndex_right c,
    Resolution.take_left c, Resolution.take_right c, c.place_left_lt, c.place_right_lt⟩

/-- **No rule of the tables ever faults**, be resolution built with the occurs check or
without it.  Wherever a rule matches its action ends without a fault; the places at which
resolution removes literals are within the clauses it has taken; and a session over any of
these rules, in any order, stops by itself, whatever the tree, the strategy and the limit. -/
theorem rules_never_fault :
    (∀ r, Listed r → ∀ n out, r.outcome? n = some out → out.fault = none) ∧
      (∀ check n b, (Resolution.rule check).find? n = some b → PlacesInRange check n b) ∧
      ∀ rules : RuleSet, (∀ r ∈ rules.rules, Listed r) → ∀ config n,
        ∃ reason, (Session.run config rules n).ending = .stopped reason := by
  refine ⟨?rule, fun _ _ _ => placesInRange_of_find?, ?session⟩
  case rule =>
    intro r hr n out hout
    obtain ⟨b, hfind, rfl⟩ := Option.map_eq_some_iff.mp hout
    exact hr.faultless n b hfind
  case session =>
    intro rules hrules config n
    exact Session.stopped_of_faultless (fun r hr => (hrules r hr).faultless) config n

end Table

end TreeRewriting

/-
TreeRewriting/Proofs/Table/Contraction.lean

What the rules of all tables do to a tree.

Table by table it has been said what a rule makes of a node where it fits.  Here
the tables are put together: an action of any of the rules contracts the node in
one of these ways and does not fault.  For resolution that takes more than a
fitting binding, since the literals have to unify; a match has seen to that.
-/
import TreeRewriting.Proofs.Table.Algebra
import TreeRewriting.Proofs.Table.Differentiation
import TreeRewriting.Proofs.Table.Logic
import TreeRewriting.Proofs.Table.Resolution
import TreeRewriting.Table

namespace TreeRewriting.Table

/-- The rules of the tables, and resolution with the occurs check or without it. -/
def Listed (r : Rule) : Prop := r ∈ all.rules ∨ ∃ check, r = Resolution.rule check

/-- The safe rules are those of algebra, of differentiation and of logic. -/
theorem mem_safe_iff {r : Rule} :
    r ∈ safe.rules ↔ r ∈ Algebra.rules ∨ r ∈ Differentiation.rules ∨ r ∈ Logic.rules := by
  show r ∈ Algebra.rules ++ Differentiation.rules ++ Logic.rules ↔ _
  rw [List.mem_append, List.mem_append, or_assoc]

theorem mem_all_of_mem_safe {r : Rule} (h : r ∈ safe.rules) : r ∈ all.rules :=
  (List.mem_filter.mp h).1

theorem Listed.of_safe {r : Rule} (h : r ∈ safe.rules) : Listed r := .inl (mem_all_of_mem_safe h)

/-- What holds of every table holds of every rule. -/
@[elab_as_elim]
theorem Listed.cases {motive : Rule → Prop} (algebra : ∀ r ∈ Algebra.rules, motive r)
    (differentiation : ∀ r ∈ Differentiation.rules, motive r)
    (logic : ∀ r ∈ Logic.rules, motive r)
    (resolution : ∀ check, motive (Resolution.rule check)) {r : Rule} (h : Listed r) :
    motive r := by
  rcases h with h | ⟨check, rfl⟩
  · simp only [all, RuleSet.ofList, List.mem_append, List.mem_singleton] at h
    rcases h with ((h | h) | h) | rfl
    · exact algebra r h
    · exact differentiation r h
    · exact logic r h
    · exact resolution false
  · exact resolution check

/-- What a rule of the tables makes of a node, when neither guards nor the values of numbers
are looked at. -/
inductive Contracts (n : Node) : Node → Prop
  | algebra {m : Node} (h : Algebra.Contracts n m) : Contracts n m
  | differentiation {m : Node} (h : Differentiation.Contracts n m) : Contracts n m
  | logic {m : Node} (h : Logic.Contracts n m) : Contracts n m
  | resolution (c : Resolution.Clash n) (s : Substitution) : Contracts n (c.resolve s)

/-- Where a rule matches, or fits and does not fault, its action contracts the node. -/
theorem Listed.contracts {r : Rule} (h : Listed r) {n : Node} {b : Binding} (hfit : r.Fits n b)
    (hdone : r.find? n = some b ∨ (r.rewrite n b).fault = none) :
    ∃ m, r.rewrite n b = .done m ∧ Contracts n m := by
  revert hfit hdone
  refine h.cases ?algebra ?differentiation ?logic ?resolution
  case algebra =>
    intro r hr hfit _
    obtain ⟨m, hm, hcontracts⟩ := Algebra.contracts_of_fits hr hfit
    exact ⟨m, hm, .algebra hcontracts⟩
  case differentiation =>
    intro r hr hfit _
    obtain ⟨m, hm, hcontracts⟩ := Differentiation.contracts_of_fits hr hfit
    exact ⟨m, hm, .differentiation hcontracts⟩
  case logic =>
    intro r hr hfit _
    obtain ⟨m, hm, hcontracts⟩ := Logic.contracts_of_fits hr hfit
    exact ⟨m, hm, .logic hcontracts⟩
  case resolution =>
    -- only this action can give up, so only here it matters that the rule matches
    rintro check hfit (hfind | hfault)
    · obtain ⟨c, s, rfl, hs⟩ := Resolution.unify_of_find? hfind
      exact ⟨_, Resolution.rewrite_of_unify c hs, .resolution c s⟩
    · obtain ⟨c, s, -, -, hm⟩ := Resolution.resolve_of_fits hfit hfault
      exact ⟨_, hm, .resolution c s⟩

end TreeRewriting.Table

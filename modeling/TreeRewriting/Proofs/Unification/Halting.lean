/-
TreeRewriting/Proofs/Unification/Halting.lean

Unification comes to an end.

Design.  Three things could go on for ever: the steps, since without the occurs
check a pair can lead to ever deeper terms; a walk along the bindings in one of
the states that the steps reach; and the resolution of the bindings in the end.
The steps end because all of them work over the stock of subterms they started
from.  A walk at the top of a term ends because bindings never form a cycle of
aliases, and with the check a search at every depth ends because they form no
cycle at all.  Resolution ends whatever is bound.

Main result: `unification_terminates`.
-/
import TreeRewriting.Proofs.Substitution.Walk
import TreeRewriting.Proofs.Unification.OccursCheck

namespace TreeRewriting.Unification

open Substitution

/-- A step leads from one state to another. -/
def State.Steps (check : Bool) (s s' : State) : Prop := s.step check = .next s'

/-- Steps over a closed stock of terms come to an end. -/
theorem terminates_steps {stock : List Term} (hc : Term.Closed stock) (check : Bool) {s : State}
    (hs : s.Within stock) : Terminates (State.Steps check) s :=
  .of_decreasing (P := State.Within stock) (fun s => (s.unmet stock, s.pending.length))
    (fun _ _ hs h => State.fewer_of_step hc hs h) hs

/-- **Unification comes to an end**, with the occurs check and without it.  There is no
infinite run.  In every state of a run following bindings at the top of a term ends, because
no variable is an alias of itself, and ends where `chase` says; with the check a search for a
variable at every depth ends, because there is no cycle of bindings, and finds what `reaches`
says.  Resolving bindings ends, be they cyclic or not. -/
theorem unification_terminates (check : Bool) (left right : List Term) :
    Terminates (State.Steps check) (start left right) ∧
      (∀ s, Relation.ReflTransGen (State.Steps check) (start left right) s →
        s.bindings.NoAliasCycle ∧
          (∀ t, Terminates s.bindings.Follow t ∧
            Relation.ReflTransGen s.bindings.Follow t (s.bindings.chase t) ∧
            ∀ u, ¬ s.bindings.Follow (s.bindings.chase t) u) ∧
          (check = true → s.bindings.Acyclic ∧
            ∀ v stack, Terminates (s.bindings.Search v) stack ∧
              (s.bindings.Finds v stack ↔ ∃ t ∈ stack, s.bindings.reaches v t = true))) ∧
      ∀ (s : Substitution) (t : Term), Terminates Expands (s, t) := by
  refine ⟨?steps, ?walks, terminates_expands⟩
  case steps =>
    exact terminates_steps (Term.closed_subtermsList _) check (start_within left right)
  case walks =>
    intro s hsteps
    have hm : Moves check (start left right) s :=
      Relation.ReflTransGen.mono (fun _ _ h => State.step_eq_next_iff.mp h) _ _ hsteps
    have halias := noAliasCycle_of_moves hm acyclic_empty.noAliasCycle
    refine ⟨halias, fun t => ⟨?_, follow_chase _ t, not_follow_chase halias t⟩, ?_⟩
    · exact terminates_follow halias t
    · rintro rfl
      have hacyclic := acyclic_of_moves hm acyclic_empty
      exact ⟨hacyclic, fun v stack =>
        ⟨terminates_search hacyclic v stack, finds_iff hacyclic stack⟩⟩

end TreeRewriting.Unification

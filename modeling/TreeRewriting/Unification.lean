/-
TreeRewriting/Unification.lean

Unification of lists of terms and of literals.

Steps are taken until no pair is pending or two terms clash.  The bindings found
are then resolved against each other, so that the answer is applied in one pass
over a term.
-/
import TreeRewriting.Unification.Termination

namespace TreeRewriting

namespace Unification

/-! ### Runs -/

/-- Takes steps until nothing is pending, or up to the first clash. -/
def run (check : Bool) (stock : List Term) (hc : Term.Closed stock) (s : State)
    (hs : s.Within stock) : Except Clash Substitution :=
  match h : s.step check with
  | .done => .ok s.bindings
  | .clash c => .error c
  | .next s' => run check stock hc s' (State.fewer_of_step hc hs h).1
termination_by (s.unmet stock, s.pending.length)
decreasing_by exact (State.fewer_of_step hc hs h).2

/-- The state in which two lists are to be made equal, pair by pair. -/
def start (left right : List Term) : State := ⟨.empty, [], left.zip right⟩

theorem start_within (left right : List Term) :
    (start left right).Within (Term.subtermsList (left ++ right)) where
  pending p hp := by
    obtain ⟨h₁, h₂⟩ := List.of_mem_zip (a := p.1) (b := p.2) hp
    exact ⟨Term.mem_subtermsList_self (by simp [h₁]), Term.mem_subtermsList_self (by simp [h₂])⟩
  bound v t h := by simp [start] at h

/-- The bindings that make two lists of equal length equal, as they are found. -/
def triangular (check : Bool) (left right : List Term) : Except Clash Substitution :=
  run check (Term.subtermsList (left ++ right)) (Term.closed_subtermsList _) (start left right)
    (start_within left right)

end Unification

/-! ### Unifiers -/

/-- The resolved substitution that makes two lists of terms equal, pair by pair. -/
def unify (check : Bool) (left right : List Term) : Except Unification.Clash Substitution :=
  if left.length = right.length then
    (Unification.triangular check left right).map Substitution.resolve
  else .error .lengths

namespace Literal

/-- The unifier of two literals, whatever their polarity. -/
def unify (a : Literal) (check : Bool) (b : Literal) : Except Unification.Clash Substitution :=
  if a.name = b.name ∧ a.arity = b.arity then TreeRewriting.unify check a.args b.args
  else .error (.predicates a b)

/-- Whether two literals are complementary and have a unifier. -/
def canUnify (a : Literal) (check : Bool) (b : Literal) : Bool :=
  a.complementary b && (a.unify check b).toOption.isSome

end Literal

end TreeRewriting

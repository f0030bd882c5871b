/-
TreeRewriting/Unification/Step.lean

One step of unification.

Design.  Unification works through a list of pairs of terms that have to become
equal.  A step takes the first pair and follows the bindings at the top of both
terms.  If the two are then equal, or the pair was met before, there is nothing
to do; a variable on one side is bound to the other side; two applications of
the same symbol to equally many arguments put their argument pairs in front of
the list.  Anything else is a clash.

Bound terms are never rewritten while this goes on.  With the occurs check on,
a variable that would be bound to a term that reaches it is a clash too;
without it bindings may be cyclic, and the pairs met before are what keeps the
run finite.
-/
import TreeRewriting.Substitution.Resolution

namespace TreeRewriting

namespace Substitution

/-! ### Following bindings -/

/-- The term at the end of the bindings that start at the top of a term.  A binding that
has been followed is set aside. -/
def chase (s : Substitution) : Term → Term
  | .var v =>
    match _h : s.get? v with
    | some t => chase (s.erase v) t
    | none => .var v
  | .app f ts => .app f ts
termination_by s.size
decreasing_by exact size_erase_lt _h

/-- Whether a variable that is not bound is found in the term by following bindings at
every depth.  A binding that has been followed is set aside below it. -/
def reaches (s : Substitution) (v : Nat) : Term → Bool
  | .var w =>
    match _h : s.get? w with
    | some t => reaches (s.erase w) v t
    | none => w == v
  | .app _ ts => ts.attach.any fun t => reaches s v t.1
termination_by t => (s.size, t.size)
decreasing_by
  · exact .left _ _ (size_erase_lt _h)
  · exact .right _ (by have := Term.size_le_sizeList t.2; simp only [Term.size]; omega)

theorem chase_var_of_some {s : Substitution} {v : Nat} {t : Term} (h : s.get? v = some t) :
    s.chase (.var v) = (s.erase v).chase t := by
  rw [chase]
  split <;> simp_all

theorem chase_var_of_none {s : Substitution} {v : Nat} (h : s.get? v = none) :
    s.chase (.var v) = .var v := by
  rw [chase]
  split <;> simp_all

theorem chase_app (s : Substitution) (f : String) (ts : List Term) :
    s.chase (.app f ts) = .app f ts := by
  rw [chase]

theorem reaches_var_of_some {s : Substitution} {v w : Nat} {t : Term} (h : s.get? w = some t) :
    s.reaches v (.var w) = (s.erase w).reaches v t := by
  rw [reaches]
  split <;> simp_all

theorem reaches_var_of_none {s : Substitution} {v w : Nat} (h : s.get? w = none) :
    s.reaches v (.var w) = (w == v) := by
  rw [reaches]
  split <;> simp_all

theorem reaches_app (s : Substitution) (v : Nat) (f : String) (ts : List Term) :
    s.reaches v (.app f ts) = ts.any (s.reaches v) := by
  rw [reaches, List.any_subtype (g := s.reaches v) fun _ _ => rfl, List.unattach_attach]

/-- Following bindings ends at the term itself or at a bound term. -/
theorem chase_eq_or_bound (s : Substitution) (t : Term) :
    s.chase t = t ∨ ∃ v, s.get? v = some (s.chase t) := by
  fun_induction chase s t with
  | case1 s v t h ih =>
    rcases ih with ih | ⟨w, hw⟩
    · exact .inr ⟨v, by rw [ih, h]⟩
    · refine .inr ⟨w, ?_⟩
      rw [get?_erase] at hw
      split at hw
      · exact absurd hw (by simp)
      · exact hw
  | case2 => exact .inl rfl
  | case3 => exact .inl rfl

end Substitution

namespace Unification

/-! ### States and steps -/

/-- Why terms or literals do not unify. -/
inductive Clash where
  /-- the lists have different lengths -/
  | lengths
  /-- the literals differ in name or arity -/
  | predicates (left right : Literal)
  /-- the variable would be bound to a term that reaches it -/
  | occurs (v : Nat) (t : Term)
  /-- two applications differ in symbol or arity -/
  | symbols (left right : String)
  deriving DecidableEq

/-- What has been bound, which pairs have been met, and which are still to come. -/
structure State where
  bindings : Substitution
  met : List (Term × Term)
  pending : List (Term × Term)
  deriving DecidableEq

/-- What a step leads to. -/
inductive Step where
  | done
  | clash (c : Clash)
  | next (s : State)

/-- Binds a variable to a term, unless the occurs check is on and forbids it. -/
def State.bind (check : Bool) (s : State) (v : Nat) (t : Term) : Step :=
  if check && s.bindings.reaches v t then .clash (.occurs v t)
  else .next { s with bindings := s.bindings.insert v t }

/-- Makes two terms equal at the top that are not equal already. -/
def State.solve (check : Bool) (s : State) : Term → Term → Step
  | .var v, t => s.bind check v t
  | t, .var v => s.bind check v t
  | .app f ss, .app g ts =>
    if f = g ∧ ss.length = ts.length then .next { s with pending := ss.zip ts ++ s.pending }
    else .clash (.symbols f g)

/-- Takes the first pending pair and deals with it. -/
def State.step (check : Bool) (s : State) : Step :=
  match s.pending with
  | [] => .done
  | (a, b) :: rest =>
    let pair := (s.bindings.chase a, s.bindings.chase b)
    if pair.1 = pair.2 ∨ pair ∈ s.met then .next { s with pending := rest }
    else State.solve check { s with met := pair :: s.met, pending := rest } pair.1 pair.2

end Unification

end TreeRewriting

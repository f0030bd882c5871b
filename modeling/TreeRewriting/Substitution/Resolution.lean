/-
TreeRewriting/Substitution/Resolution.lean

Closing a substitution under itself.

Design.  Bindings may be triangular: a bound term may mention variables that
are bound in turn.  To resolve them, each bound term is expanded, that is,
bound variables give way to their own expanded terms all the way down.  On the
way below a variable its binding is set aside.  That makes the recursion end
(there is one binding less to follow), and it cuts a cycle exactly where it
closes: a variable met again below itself stays in place.
-/
import TreeRewriting.Substitution.Application

namespace TreeRewriting.Substitution

/-! ### Expansion -/

/-- Every bound variable of the term gives way to its own expanded term; below a
variable its binding is set aside. -/
def expand (s : Substitution) : Term → Term
  | .var v =>
    match _h : s.get? v with
    | some t => expand (s.erase v) t
    | none => .var v
  | .app f ts => .app f (ts.map fun t => expand s t)
termination_by t => (s.size, t.size)
decreasing_by
  · exact .left _ _ (size_erase_lt _h)
  · rename_i h
    exact .right _ (by have := Term.size_le_sizeList h; simp only [Term.size]; omega)

/-- The substitution closed under itself: each variable is bound to the expansion of its
term, with its own binding set aside. -/
def resolve (s : Substitution) : Substitution :=
  s.mapTerms fun v t => (s.erase v).expand t

/-- The substitution made of the given pairs, a later pair for the same variable winning,
and then resolved. -/
def ofPairs (pairs : List (Nat × Term)) : Substitution :=
  (pairs.foldl (fun s e => s.insert e.1 e.2) empty).resolve

/-! ### What expansion does -/

theorem expand_var_of_some {s : Substitution} {v : Nat} {t : Term} (h : s.get? v = some t) :
    s.expand (.var v) = (s.erase v).expand t := by
  rw [expand]
  split <;> simp_all

theorem expand_var_of_none {s : Substitution} {v : Nat} (h : s.get? v = none) :
    s.expand (.var v) = .var v := by
  rw [expand]
  split <;> simp_all

theorem expand_app (s : Substitution) (f : String) (ts : List Term) :
    s.expand (.app f ts) = .app f (ts.map s.expand) := by
  rw [expand]

theorem get?_resolve (s : Substitution) (v : Nat) :
    s.resolve.get? v = (s.get? v).map (s.erase v).expand := by
  simp [resolve]

end TreeRewriting.Substitution

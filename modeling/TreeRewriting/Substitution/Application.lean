/-
TreeRewriting/Substitution/Application.lean

What a substitution makes of terms and literals, and how it is written.

Applying a substitution replaces every bound variable once; the replacement is
not looked at again.  When no bound term mentions a bound variable, a second
application would find nothing to do.
-/
import TreeRewriting.Literal
import TreeRewriting.Substitution.Bindings
import TreeRewriting.Text.Quoted

namespace TreeRewriting.Substitution

/-! ### Application -/

mutual

/-- Every bound variable of the term gives way to its bound term. -/
def apply (s : Substitution) : Term → Term
  | .var v => (s.get? v).getD (.var v)
  | .app f ts => .app f (applyList s ts)

/-- The substitution applied to each term of a list. -/
def applyList (s : Substitution) : List Term → List Term
  | [] => []
  | t :: ts => apply s t :: applyList s ts

end

/-- The substitution applied to the arguments of a literal. -/
def applyLiteral (s : Substitution) (l : Literal) : Literal := { l with args := s.applyList l.args }

/-- No bound term mentions a bound variable. -/
def isIdempotent (s : Substitution) : Bool :=
  s.entries.all fun e => e.2.vars.all fun v => !s.binds v

theorem applyList_eq_map (s : Substitution) (ts : List Term) : s.applyList ts = ts.map s.apply := by
  induction ts with
  | nil => rfl
  | cons t ts ih => simp [applyList, ih]

/-! ### Text -/

/-- The text of a substitution: each variable and the term it is bound to, both quoted,
in ascending order of the variables and between braces. -/
def text (s : Substitution) : String :=
  let binding := fun e : Nat × Term =>
    Quoted.string (Term.var e.1).text ++ ": " ++ Quoted.string e.2.text
  "\x7b" ++ ", ".intercalate (s.entries.map binding) ++ "\x7d"

end TreeRewriting.Substitution

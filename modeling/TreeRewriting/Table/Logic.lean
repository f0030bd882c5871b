/-
TreeRewriting/Table/Logic.lean

Rules of propositional logic.

Truth constants are absorbed, double negations cancel, a tree next to its own
negation decides the connective, and equal operands collapse to one.  A clause
that holds a literal and its negation is true.
-/
import TreeRewriting.Node.Equality
import TreeRewriting.Rule

namespace TreeRewriting.Logic

open Rewriting

/-- The tags of the rules of logic. -/
def tags : TagSet := .ofList [.logic, .safe, .deductive]

/-- Whether two labels are bound to the same tree. -/
def sameNode (m : Match) (x y : String) : Bool :=
  match m.node? x, m.node? y with
  | some a, some b => Node.structurallyEqual true a b
  | _, _ => false

/-! ### Negation -/

/-- Two negations cancel. -/
def notNot : Rule where
  name := "not-not"
  tags
  pattern := .ofShape (.group "n" .fixed (.group "m" .fixed "x" []) [])
  expects := [.is .not, .is .not, .any]
  guard := none
  action := do
    let x ← take "x"
    replace "n" x

/-- Carries out the negation of a truth constant. -/
def notConstant : Rule where
  name := "not-constant"
  tags
  pattern := .ofShape (.group "n" .fixed "c" [])
  expects := [.is .not, .is .bool]
  guard := none
  action := do
    let c ← read (·.bool "c")
    replace "n" (.bool !c)

/-! ### Conjunction and disjunction -/

/-- A truth constant on either side of a connective: the neutral one leaves the other
operand, the absorbing one is the result. -/
def absorb (name : String) (k : Kind) (value neutral : Bool) : Rule where
  name
  tags
  pattern := .ofShape (.group "p" .free "t" ["x"])
  expects := [.is k, .is .bool, .any]
  guard := some fun m => m.bool? "t" == some value
  action :=
    if neutral then do
      let x ← take "x"
      replace "p" x
    else replace "p" (.bool value)

/-- An operand next to its own negation decides the connective. -/
def complement (name : String) (k : Kind) (value : Bool) : Rule where
  name
  tags
  pattern := .ofShape (.group "p" .free "x" [.group "n" .fixed "y" []])
  expects := [.is k, .any, .is .not, .any]
  guard := some fun m => sameNode m "x" "y"
  action := replace "p" (.bool value)

/-- Two equal operands collapse to one. -/
def idempotent (name : String) (k : Kind) : Rule where
  name
  tags
  pattern := .ofShape (.group "p" .fixed "x" ["y"])
  expects := [.is k, .any, .any]
  guard := some fun m => sameNode m "x" "y"
  action := do
    let x ← take "x"
    replace "p" x

/-! ### Clauses -/

/-- A clause that holds a literal and its negation is true. -/
def clauseTautology : Rule where
  name := "clause-tautology"
  tags
  pattern := .ofShape (.group "c" .free "p" ["q"])
  expects := [.is .clause, .is .predicate, .is .predicate]
  guard := some fun m =>
    match m.literal? "p", m.literal? "q" with
    | some p, some q => p.complementary q && p.name == q.name && p.args == q.args
    | _, _ => false
  action := replace "c" (.bool true)

/-! ### The table -/

/-- Truth is neutral in a conjunction. -/
def andTrue : Rule := absorb "and-true" .and true true

/-- Falsehood decides a conjunction. -/
def andFalse : Rule := absorb "and-false" .and false false

/-- Falsehood is neutral in a disjunction. -/
def orFalse : Rule := absorb "or-false" .or false true

/-- Truth decides a disjunction. -/
def orTrue : Rule := absorb "or-true" .or true false

/-- A tree or its negation is true. -/
def tautology : Rule := complement "tautology" .or true

/-- A tree and its negation is false. -/
def contradiction : Rule := complement "contradiction" .and false

/-- A disjunction of equal operands is the operand. -/
def orIdempotent : Rule := idempotent "or-idempotent" .or

/-- A conjunction of equal operands is the operand. -/
def andIdempotent : Rule := idempotent "and-idempotent" .and

/-- The rules of logic. -/
def rules : List Rule :=
  [notNot, notConstant, andTrue, andFalse, orFalse, orTrue, tautology, contradiction,
    orIdempotent, andIdempotent, clauseTautology]

end TreeRewriting.Logic

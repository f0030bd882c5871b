/-
TreeRewriting/Table.lean

The tables of rules together.
-/
import TreeRewriting.RuleSet
import TreeRewriting.Table.Algebra
import TreeRewriting.Table.Differentiation
import TreeRewriting.Table.Logic
import TreeRewriting.Table.Resolution

namespace TreeRewriting.Table

/-- Every rule: algebra, differentiation, logic, and resolution without the occurs
check. -/
def all : RuleSet :=
  .ofList (Algebra.rules ++ Differentiation.rules ++ Logic.rules ++ [Resolution.rule false])

/-- The rules that may be applied whenever they match. -/
def safe : RuleSet := all.withTag .safe

/-- The rule of a name in the tables. -/
def rule? (name : String) : Option Rule := all.get? name

end TreeRewriting.Table

/-
TreeRewriting/Table/Resolution.lean

The resolution rule.

Two clauses of a set with complementary literals that unify lose those two
literals, and the unifier is applied to what remains of both.  The set keeps as
many clauses as it had: the two are replaced where they stand.
-/
import TreeRewriting.Node.Substitution
import TreeRewriting.Rule
import TreeRewriting.Unification

namespace TreeRewriting.Resolution

open Rewriting

/-- The instance of a clause without one of its literals; a tree that is not a clause
keeps all it has. -/
def resolvent (s : Substitution) (index : Nat) : Node → Node
  | .clause ls => s.applyNode (.clause (ls.eraseIdx index))
  | n => s.applyNode n

/-- The resolution rule, with the occurs check or without it. -/
def rule (check : Bool) : Rule where
  name := "resolution"
  tags := .ofList [.logic, .resolution, .deductive]
  pattern := .ofShape (.group "set" .free (.group "a" .free "b" []) [.group "c" .free "d" []])
  expects := [.any, .is .clause, .is .predicate, .is .clause, .is .predicate]
  guard := some fun m =>
    match m.literal? "b", m.literal? "d" with
    | some b, some d => b.canUnify check d
    | _, _ => false
  action := do
    let b ← read (·.literal "b")
    let d ← read (·.literal "d")
    match b.unify check d with
    | .error _ => fail "literals no longer unify"
    | .ok s =>
      let i ← read (·.childIndex "b")
      let j ← read (·.childIndex "d")
      let a ← take "a"
      let c ← take "c"
      replace "a" (resolvent s i a)
      replace "c" (resolvent s j c)

end TreeRewriting.Resolution

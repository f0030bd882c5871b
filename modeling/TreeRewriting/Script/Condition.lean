/-
TreeRewriting/Script/Condition.lean

Guards as data.

A condition is built from tests of what labels are bound to.  A label that the
pattern does not declare has no payload: tests for a payload fail on it, and
two such labels have the same variable, namely none.
-/
import TreeRewriting.Node.Equality
import TreeRewriting.Rule.Match
import TreeRewriting.Unification

namespace TreeRewriting

/-- A test of a match. -/
inductive Condition where
  | const (b : Bool)
  | not (c : Condition)
  | and (cs : List Condition)
  | or (cs : List Condition)
  /-- the label is bound to a number that compares equal -/
  | isNumber (label : String) (x : Number)
  /-- the label is bound to a greater number -/
  | numberAbove (label : String) (x : Number)
  | isBool (label : String) (b : Bool)
  | isVar (label : String) (i : Nat)
  /-- the labels have the same variable, or none -/
  | sameVar (label₁ label₂ : String)
  /-- the labels are bound to equal trees, up to renaming unless the reading is strict -/
  | sameNode (label₁ label₂ : String) (strict : Bool)
  /-- the label is bound to a literal of this name -/
  | literalName (label name : String)
  /-- the labels are bound to complementary literals that unify -/
  | canUnify (label₁ label₂ : String) (check : Bool)
  | isBound (label : String)
  /-- the label is bound to this location below the node of the match -/
  | isAt (label : String) (p : Location)
  /-- the label is bound to a tree of at most so many nodes -/
  | sizeAtMost (label : String) (size : Nat)

namespace Condition

mutual

/-- Whether a match meets a condition. -/
def holds (m : Match) : Condition → Bool
  | .const b => b
  | .not c => !holds m c
  | .and cs => holdsAll m cs
  | .or cs => holdsAny m cs
  | .isNumber l x => m.isNumber l x
  | .numberAbove l x => (m.number? l).any fun y => y > x
  | .isBool l b => m.bool? l == some b
  | .isVar l i => m.var? l == some i
  | .sameVar k l => m.var? k == m.var? l
  | .sameNode k l strict =>
    match m.node? k, m.node? l with
    | some a, some b => Node.structurallyEqual strict a b
    | _, _ => false
  | .literalName l name => (m.literal? l).any (·.name == name)
  | .canUnify k l check =>
    match m.literal? k, m.literal? l with
    | some a, some b => a.canUnify check b
    | _, _ => false
  | .isBound l => (m.node? l).isSome
  | .isAt l p => m.location? l == some p
  | .sizeAtMost l size => (m.node? l).any fun n => n.size ≤ size

/-- Whether a match meets all of the conditions. -/
def holdsAll (m : Match) : List Condition → Bool
  | [] => true
  | c :: cs => holds m c && holdsAll m cs

/-- Whether a match meets one of the conditions. -/
def holdsAny (m : Match) : List Condition → Bool
  | [] => false
  | c :: cs => holds m c || holdsAny m cs

end

end Condition

end TreeRewriting

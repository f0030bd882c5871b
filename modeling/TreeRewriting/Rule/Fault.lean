/-
TreeRewriting/Rule/Fault.lean

What can go wrong with a rule.

A rule that does not match is no error.  A rule may be impossible to build, and
an action may do what its rule does not allow: that is a fault, and it names
the rule.
-/
import TreeRewriting.Node.Location
import TreeRewriting.Pattern.Parser

namespace TreeRewriting

/-! ### Faults of actions -/

/-- The message about a location that is not in a tree. -/
def Location.missingMessage (p : Location) : String := "no node at " ++ p.text

/-- What an action did wrong. -/
inductive Fault.Cause where
  /-- the pattern has no such label -/
  | unknownLabel (label : String)
  /-- the position went with a subtree that was taken or replaced -/
  | detached (label : String)
  /-- the subtree at the position was taken and nothing put in its place -/
  | vacated (label : String)
  /-- the node at the position has another kind -/
  | wrongKind (label : String) (found : Kind) (wanted : String)
  /-- the action gave up -/
  | failed (reason : String)
  /-- the location is not in the tree, or has no parent -/
  | noNode (p : Location)
  deriving DecidableEq

/-- A fault of a rule's action. -/
structure Fault where
  rule : String
  cause : Fault.Cause
  deriving DecidableEq

/-- The wording of a fault. -/
def Fault.message (f : Fault) : String :=
  let rule := "rule " ++ Quoted.string f.rule
  let position := fun l => rule ++ ": position " ++ Quoted.string l
  match f.cause with
  | .unknownLabel l => rule ++ " has no position labelled " ++ Quoted.string l
  | .detached l => position l ++ " is no longer part of the tree"
  | .vacated l => position l ++ " was taken but never refilled"
  | .wrongKind l found wanted => position l ++ " is a " ++ found.name ++ ", not a " ++ wanted
  | .failed reason => rule ++ ": " ++ reason
  | .noNode p => rule ++ ": " ++ p.missingMessage

/-! ### Rules that cannot be built -/

/-- Why a rule cannot be built. -/
inductive Defect.Cause where
  /-- the text of the pattern is malformed -/
  | pattern (e : Pattern.Error)
  /-- there is no pattern -/
  | noPattern
  /-- there is no action -/
  | noAction
  /-- there is not one expectation for each position -/
  | expectCount (positions expected : Nat)
  deriving DecidableEq

/-- A rule that cannot be built. -/
structure Defect where
  rule : String
  cause : Defect.Cause
  deriving DecidableEq

/-- The wording of a defect. -/
def Defect.message (d : Defect) : String :=
  let rule := "rule " ++ Quoted.string d.rule
  match d.cause with
  | .pattern e => rule ++ ": " ++ e.message
  | .noPattern => rule ++ " has no pattern"
  | .noAction => rule ++ " has no rewrite action"
  | .expectCount positions expected =>
    rule ++ " declares " ++ toString positions ++ " positions but " ++ toString expected ++
      " expected variants"

end TreeRewriting

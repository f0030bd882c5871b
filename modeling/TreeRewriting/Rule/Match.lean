/-
TreeRewriting/Rule/Match.lean

What a rule asks of a binding.

A rule expects something of the node at every position of its pattern, and a
guard may look at the bound nodes by their labels.  A label that the pattern
does not declare has no node, and a payload of another kind is none.
-/
import TreeRewriting.Pattern.Binding

namespace TreeRewriting

/-! ### Expectations -/

/-- What is expected of the node at a position. -/
inductive Expect where
  | any
  | constant
  | operator
  | is (k : Kind)
  deriving DecidableEq, Inhabited

namespace Expect

/-- Whether a node is as expected. -/
def accepts : Expect → Node → Bool
  | .any, _ => true
  | .constant, n => n.kind.isConstant
  | .operator, n => !n.kind.isLeaf
  | .is k, n => n.kind == k

@[simp] theorem accepts_any (n : Node) : any.accepts n = true := rfl

@[simp] theorem accepts_is {k : Kind} {n : Node} : (is k).accepts n = true ↔ n.kind = k :=
  beq_iff_eq

/-- The text of an expectation. -/
def text : Expect → String
  | .any => "Any"
  | .constant => "Constant"
  | .operator => "Operator"
  | .is k => "Is(" ++ k.name ++ ")"

/-- All expectations, the general ones first. -/
def all : List Expect := [.any, .constant, .operator] ++ Kind.all.map .is

end Expect

/-! ### Matches -/

/-- A binding of a pattern at a node. -/
structure Match where
  root : Node
  pattern : Pattern
  binding : Binding

namespace Match

/-- The location a label is bound to, from the node of the match. -/
def location? (m : Match) (label : String) : Option Location :=
  (m.pattern.indexOf? label).bind fun i => m.binding[i]?

/-- The node a label is bound to. -/
def node? (m : Match) (label : String) : Option Node :=
  (m.location? label).bind m.root.at?

/-- The number a label is bound to. -/
def number? (m : Match) (label : String) : Option Number := (m.node? label).bind Node.number?

/-- The truth value a label is bound to. -/
def bool? (m : Match) (label : String) : Option Bool := (m.node? label).bind Node.bool?

/-- The variable a label is bound to. -/
def var? (m : Match) (label : String) : Option Nat := (m.node? label).bind Node.var?

/-- The literal a label is bound to. -/
def literal? (m : Match) (label : String) : Option Literal := (m.node? label).bind Node.literal?

theorem literal?_eq_some {m : Match} {label : String} {p : Location} {l : Literal}
    (hp : m.location? label = some p) (hl : m.root.at? p = some (.predicate l)) :
    m.literal? label = some l := by
  simp only [literal?, node?, hp, Option.bind_some, hl, Node.literal?]

/-- Whether a label is bound to a number that compares equal to the given one. -/
def isNumber (m : Match) (label : String) (x : Number) : Bool :=
  ((m.node? label).map (·.isNumber x)).getD false

end Match

end TreeRewriting

/-
TreeRewriting/Node/Tree.lean

Expression trees.

Design.  A node is a leaf with a payload or an operator over one, two or any
number of operands.  Which operators there are is data (`UnaryOp`, `BinaryOp`,
`NaryOp`), so that what does not depend on the operator is said once per
number of operands.  Rules and sessions look at a node through its `kind` and
its list of `children`; `withChildren` is the way back
(`children_withChildren`).
-/
import TreeRewriting.Literal
import TreeRewriting.Number

namespace TreeRewriting

/-- What a node without operands holds.  A variable of an expression is a number that an
environment gives a value; the variables of a literal belong to its terms. -/
inductive Leaf where
  | number (x : Number)
  | bool (b : Bool)
  | var (index : Nat)
  | predicate (l : Literal)
  deriving Inhabited

/-- Operators on one operand. -/
inductive UnaryOp where
  | negate
  | ln
  | not
  deriving DecidableEq, Inhabited

/-- Operators on two operands.  The second operand of a derivative is the variable it is
taken by. -/
inductive BinaryOp where
  | plus
  | product
  | power
  | differentiate
  | and
  | or
  deriving DecidableEq, Inhabited

/-- Operators on any number of operands: a clause is the disjunction of its literals, a
clause set the conjunction of its clauses. -/
inductive NaryOp where
  | clause
  | clauseSet
  deriving DecidableEq, Inhabited

/-- An expression tree. -/
inductive Node where
  | leaf (l : Leaf)
  | unary (op : UnaryOp) (x : Node)
  | binary (op : BinaryOp) (a b : Node)
  | nary (op : NaryOp) (xs : List Node)

/-- What a node is, its payload and operands aside. -/
inductive Kind where
  | number
  | bool
  | var
  | predicate
  | negate
  | ln
  | not
  | plus
  | product
  | power
  | differentiate
  | and
  | or
  | clause
  | clauseSet
  deriving DecidableEq, Inhabited

namespace Kind

/-- All kinds, leaves first, then operators by the number of their operands. -/
def all : List Kind :=
  [number, bool, var, predicate, negate, ln, not, plus, product, power, differentiate, and, or,
    clause, clauseSet]

/-- The kinds without operands. -/
def isLeaf : Kind → Bool
  | number | bool | var | predicate => true
  | _ => false

/-- The kinds of constants. -/
def isConstant : Kind → Bool
  | number | bool => true
  | _ => false

/-- The name of a kind. -/
def name : Kind → String
  | number => "Number"
  | bool => "Bool"
  | var => "Variable"
  | predicate => "Predicate"
  | negate => "Negate"
  | ln => "Ln"
  | not => "Not"
  | plus => "Plus"
  | product => "Product"
  | power => "Power"
  | differentiate => "Differentiate"
  | and => "And"
  | or => "Or"
  | clause => "Clause"
  | clauseSet => "ClauseSet"

theorem mem_all (k : Kind) : k ∈ all := by
  cases k <;> simp [all]

end Kind

/-- The kind of a leaf with this payload. -/
def Leaf.kind : Leaf → Kind
  | .number _ => .number
  | .bool _ => .bool
  | .var _ => .var
  | .predicate _ => .predicate

/-- The kind of a node under this operator. -/
def UnaryOp.kind : UnaryOp → Kind
  | .negate => .negate
  | .ln => .ln
  | .not => .not

/-- The kind of a node under this operator. -/
def BinaryOp.kind : BinaryOp → Kind
  | .plus => .plus
  | .product => .product
  | .power => .power
  | .differentiate => .differentiate
  | .and => .and
  | .or => .or

/-- The kind of a node under this operator. -/
def NaryOp.kind : NaryOp → Kind
  | .clause => .clause
  | .clauseSet => .clauseSet

namespace Node

instance : Inhabited Node := ⟨.leaf (.bool false)⟩

/-! ### Building trees -/

/-- A numeric constant. -/
@[match_pattern] abbrev number (x : Number) : Node := .leaf (.number x)

/-- A truth constant. -/
@[match_pattern] abbrev bool (b : Bool) : Node := .leaf (.bool b)

/-- A variable. -/
@[match_pattern] abbrev var (i : Nat) : Node := .leaf (.var i)

/-- A literal as a tree. -/
@[match_pattern] abbrev predicate (l : Literal) : Node := .leaf (.predicate l)

/-- The additive inverse. -/
@[match_pattern] abbrev negate (x : Node) : Node := .unary .negate x

/-- The natural logarithm. -/
@[match_pattern] abbrev ln (x : Node) : Node := .unary .ln x

/-- The negation of a truth value. -/
@[match_pattern] abbrev not (x : Node) : Node := .unary .not x

/-- A sum. -/
@[match_pattern] abbrev plus (a b : Node) : Node := .binary .plus a b

/-- A product. -/
@[match_pattern] abbrev product (a b : Node) : Node := .binary .product a b

/-- A power, base first. -/
@[match_pattern] abbrev power (a b : Node) : Node := .binary .power a b

/-- The derivative of an expression by a variable. -/
@[match_pattern] abbrev differentiate (e x : Node) : Node := .binary .differentiate e x

/-- A conjunction. -/
@[match_pattern] abbrev and (a b : Node) : Node := .binary .and a b

/-- A disjunction. -/
@[match_pattern] abbrev or (a b : Node) : Node := .binary .or a b

/-- A clause. -/
@[match_pattern] abbrev clause (ls : List Node) : Node := .nary .clause ls

/-- A clause set. -/
@[match_pattern] abbrev clauseSet (cs : List Node) : Node := .nary .clauseSet cs

/-! ### Kinds, children and payloads -/

/-- The kind of a node. -/
def kind : Node → Kind
  | .leaf l => l.kind
  | .unary op _ => op.kind
  | .binary op _ _ => op.kind
  | .nary op _ => op.kind

/-- The operands of a node, in order. -/
def children : Node → List Node
  | .leaf _ => []
  | .unary _ x => [x]
  | .binary _ a b => [a, b]
  | .nary _ xs => xs

/-- The number of operands. -/
def arity (n : Node) : Nat := n.children.length

/-- The node with other operands.  A list that the operator does not take leaves the node
as it is. -/
def withChildren : Node → List Node → Node
  | .unary op _, [x] => .unary op x
  | .binary op _ _, [a, b] => .binary op a b
  | .nary op _, xs => .nary op xs
  | n, _ => n

/-- The number of a numeric constant. -/
def number? : Node → Option Number
  | .number x => some x
  | _ => none

/-- The truth value of a truth constant. -/
def bool? : Node → Option Bool
  | .bool b => some b
  | _ => none

/-- The index of a variable. -/
def var? : Node → Option Nat
  | .var i => some i
  | _ => none

/-- The literal of a predicate. -/
def literal? : Node → Option Literal
  | .predicate l => some l
  | _ => none

/-- Whether a node is a number that compares equal to the given one.  Both zeros compare
equal, and not-a-number does not even to itself. -/
def isNumber (n : Node) (x : Number) : Bool :=
  match n.number? with
  | some y => y == x
  | none => false

/-! ### Kinds and arities of operators -/

@[simp] theorem kind_leaf (l : Leaf) : (leaf l).kind = l.kind := rfl

@[simp] theorem kind_unary (op : UnaryOp) (x : Node) : (unary op x).kind = op.kind := rfl

@[simp] theorem kind_binary (op : BinaryOp) (a b : Node) : (binary op a b).kind = op.kind := rfl

@[simp] theorem kind_nary (op : NaryOp) (xs : List Node) : (nary op xs).kind = op.kind := rfl

@[simp] theorem arity_unary (op : UnaryOp) (x : Node) : (unary op x).arity = 1 := rfl

@[simp] theorem arity_binary (op : BinaryOp) (a b : Node) : (binary op a b).arity = 2 := rfl

@[simp] theorem arity_nary (op : NaryOp) (xs : List Node) : (nary op xs).arity = xs.length := rfl

theorem eq_leaf_of_isLeaf {n : Node} (h : n.kind.isLeaf = true) : ∃ l, n = leaf l := by
  cases n with
  | leaf l => exact ⟨l, rfl⟩
  | unary op => cases op <;> cases h
  | binary op => cases op <;> cases h
  | nary op => cases op <;> cases h

theorem kind_eq_number {n : Node} : n.kind = .number ↔ ∃ x, n = number x := by
  refine ⟨fun h => ?_, fun ⟨_, h⟩ => h ▸ rfl⟩
  obtain ⟨l, rfl⟩ := eq_leaf_of_isLeaf (by rw [h]; rfl : n.kind.isLeaf = true)
  cases l with
  | number x => exact ⟨x, rfl⟩
  | _ => cases h

theorem kind_eq_bool {n : Node} : n.kind = .bool ↔ ∃ b, n = bool b := by
  refine ⟨fun h => ?_, fun ⟨_, h⟩ => h ▸ rfl⟩
  obtain ⟨l, rfl⟩ := eq_leaf_of_isLeaf (by rw [h]; rfl : n.kind.isLeaf = true)
  cases l with
  | bool b => exact ⟨b, rfl⟩
  | _ => cases h

theorem kind_eq_var {n : Node} : n.kind = .var ↔ ∃ i, n = var i := by
  refine ⟨fun h => ?_, fun ⟨_, h⟩ => h ▸ rfl⟩
  obtain ⟨l, rfl⟩ := eq_leaf_of_isLeaf (by rw [h]; rfl : n.kind.isLeaf = true)
  cases l with
  | var i => exact ⟨i, rfl⟩
  | _ => cases h

theorem kind_eq_predicate {n : Node} : n.kind = .predicate ↔ ∃ l, n = predicate l := by
  refine ⟨fun h => ?_, fun ⟨_, h⟩ => h ▸ rfl⟩
  obtain ⟨l, rfl⟩ := eq_leaf_of_isLeaf (by rw [h]; rfl : n.kind.isLeaf = true)
  cases l with
  | predicate l => exact ⟨l, rfl⟩
  | _ => cases h

theorem kind_eq_unary {n : Node} {op : UnaryOp} : n.kind = op.kind ↔ ∃ x, n = unary op x := by
  refine ⟨fun h => ?_, fun ⟨_, h⟩ => h ▸ rfl⟩
  cases n with
  | leaf l => cases l <;> cases op <;> cases h
  | unary op' x =>
    obtain rfl : op' = op := by cases op' <;> cases op <;> first | rfl | cases h
    exact ⟨x, rfl⟩
  | binary op' => cases op' <;> cases op <;> cases h
  | nary op' => cases op' <;> cases op <;> cases h

theorem kind_eq_binary {n : Node} {op : BinaryOp} :
    n.kind = op.kind ↔ ∃ a b, n = binary op a b := by
  refine ⟨fun h => ?_, fun ⟨_, _, h⟩ => h ▸ rfl⟩
  cases n with
  | leaf l => cases l <;> cases op <;> cases h
  | unary op' => cases op' <;> cases op <;> cases h
  | binary op' a b =>
    obtain rfl : op' = op := by cases op' <;> cases op <;> first | rfl | cases h
    exact ⟨a, b, rfl⟩
  | nary op' => cases op' <;> cases op <;> cases h

theorem kind_eq_nary {n : Node} {op : NaryOp} : n.kind = op.kind ↔ ∃ xs, n = nary op xs := by
  refine ⟨fun h => ?_, fun ⟨_, h⟩ => h ▸ rfl⟩
  cases n with
  | leaf l => cases l <;> cases op <;> cases h
  | unary op' => cases op' <;> cases op <;> cases h
  | binary op' => cases op' <;> cases op <;> cases h
  | nary op' xs =>
    obtain rfl : op' = op := by cases op' <;> cases op <;> first | rfl | cases h
    exact ⟨xs, rfl⟩

/-! ### Exchanging the children -/

@[simp] theorem children_withChildren {n : Node} {xs : List Node} (h : xs.length = n.arity) :
    (n.withChildren xs).children = xs := by
  unfold arity at h
  cases n with
  | leaf l => simp_all [withChildren, children]
  | unary op x =>
    obtain ⟨y, rfl⟩ := List.length_eq_one_iff.mp h
    rfl
  | binary op a b =>
    match xs, h with
    | [_, _], _ => rfl
  | nary op ys => rfl

@[simp] theorem withChildren_children (n : Node) : n.withChildren n.children = n := by
  cases n <;> rfl

/-- The operands given last are the ones that stand. -/
theorem withChildren_withChildren {n : Node} {xs ys : List Node} (hx : xs.length = n.arity)
    (hy : ys.length = n.arity) : (n.withChildren xs).withChildren ys = n.withChildren ys := by
  unfold arity at hx hy
  cases n with
  | leaf l => rfl
  | unary op x =>
    obtain ⟨y, rfl⟩ := List.length_eq_one_iff.mp hx
    obtain ⟨z, rfl⟩ := List.length_eq_one_iff.mp hy
    rfl
  | binary op a b =>
    match xs, ys, hx, hy with
    | [_, _], [_, _], _, _ => rfl
  | nary op zs => rfl

@[simp] theorem kind_withChildren (n : Node) (xs : List Node) :
    (n.withChildren xs).kind = n.kind := by
  unfold withChildren
  split <;> rfl

end Node

end TreeRewriting

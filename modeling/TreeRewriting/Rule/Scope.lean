/-
TreeRewriting/Rule/Scope.lean

The scope in which a rule's action works.

Design.  An action sees the tree through the labels of its pattern.  It may
read and copy what is bound to a label, take a subtree out, and put a subtree
in place of another.  A scope therefore holds the tree, the binding, and how
each position stands: live, vacated once its subtree has been taken, detached
once a position above it has been taken or replaced.  What has been vacated can
be refilled, what has been detached stays so.  A call that fails changes
nothing.

While a position is vacated a false truth constant stands there.  An action is
complete when no position is left vacated.
-/
import TreeRewriting.Pattern.Binding
import TreeRewriting.Rule.Fault

namespace TreeRewriting

/-- How a position stands. -/
inductive Standing where
  /-- what is bound there is part of the tree -/
  | live
  /-- what was bound there has been taken -/
  | vacated
  /-- a position above has been taken or replaced -/
  | detached
  deriving DecidableEq, Inhabited

/-- What a call of an action answers. -/
inductive Reply where
  | rule (name : String)
  | node (n : Node)
  | number (x : Number)
  | bool (b : Bool)
  | index (i : Nat)
  | literal (l : Literal)
  | replaced

/-- The state of an action: the tree below the matched node, what its positions are bound
to and how they stand, and the answers the action has written down. -/
structure Scope where
  rule : String
  pattern : Pattern
  binding : Binding
  tree : Node
  standings : List Standing
  journal : List (Except Fault Reply)

namespace Scope

/-- The scope of a rule's action on a tree: every position is live. -/
def enter (rule : String) (pattern : Pattern) (binding : Binding) (tree : Node) : Scope :=
  ⟨rule, pattern, binding, tree, binding.map fun _ => .live, []⟩

/-- A fault of the rule at work. -/
def fault (s : Scope) (cause : Fault.Cause) : Fault := ⟨s.rule, cause⟩

/-! ### Positions -/

/-- The place of a label among the positions. -/
def index (s : Scope) (label : String) : Except Fault Nat :=
  match s.pattern.indexOf? label with
  | some i => .ok i
  | none => .error (s.fault (.unknownLabel label))

/-- How the position at a place stands. -/
def standing (s : Scope) (i : Nat) : Standing := s.standings.getD i .live

/-- The location that the position at a place is bound to. -/
def location (s : Scope) (i : Nat) : Location := s.binding.getD i []

/-- The place of a label whose position is live. -/
def live (s : Scope) (label : String) : Except Fault Nat :=
  match s.index label with
  | .error e => .error e
  | .ok i =>
    match s.standing i with
    | .live => .ok i
    | .vacated => .error (s.fault (.vacated label))
    | .detached => .error (s.fault (.detached label))

/-- The position at a place gets a standing, and everything below it is detached. -/
def settle (s : Scope) (i : Nat) (standing : Standing) : List Standing :=
  (s.binding.zip (s.standings.set i standing)).map fun e =>
    if e.1.isBelow (s.location i) then .detached else e.2

/-! ### Reading -/

/-- The node at a live position. -/
def node (s : Scope) (label : String) : Except Fault Node :=
  match s.live label with
  | .error e => .error e
  | .ok i =>
    match s.tree.at? (s.location i) with
    | some n => .ok n
    | none => .error (s.fault (.noNode (s.location i)))

/-- The payload of the node at a live position, if it has the wanted kind. -/
def payload {α : Type} (s : Scope) (wanted : String) (get : Node → Option α) (label : String) :
    Except Fault α :=
  match s.node label with
  | .error e => .error e
  | .ok n =>
    match get n with
    | some a => .ok a
    | none => .error (s.fault (.wrongKind label n.kind wanted))

/-- The number at a live position. -/
def number (s : Scope) (label : String) : Except Fault Number := s.payload "number" Node.number? label

/-- The truth value at a live position. -/
def bool (s : Scope) (label : String) : Except Fault Bool := s.payload "boolean" Node.bool? label

/-- The variable at a live position. -/
def var (s : Scope) (label : String) : Except Fault Nat := s.payload "variable" Node.var? label

/-- The literal at a live position. -/
def literal (s : Scope) (label : String) : Except Fault Literal :=
  s.payload "predicate" Node.literal? label

/-- The number or truth value at a live position. -/
def constant (s : Scope) (label : String) : Except Fault (Number ⊕ Bool) :=
  s.payload "constant" (fun n => (n.number?.map .inl).or (n.bool?.map .inr)) label

/-- Which child of its parent a live position is bound to; the node of the match has no
parent. -/
def childIndex (s : Scope) (label : String) : Except Fault Nat :=
  match s.live label with
  | .error e => .error e
  | .ok i =>
    match (s.location i).getLast? with
    | some c => .ok c
    | none => .error (s.fault (.noNode (s.location i)))

/-! ### Changing -/

/-- Takes the subtree at a live position out of the tree. -/
def take (s : Scope) (label : String) : Except Fault (Node × Scope) :=
  match s.live label with
  | .error e => .error e
  | .ok i =>
    match s.tree.at? (s.location i) with
    | some n =>
      .ok (n, { s with
        tree := s.tree.set (s.location i) (.bool false), standings := s.settle i .vacated })
    | none => .error (s.fault (.noNode (s.location i)))

/-- Puts a subtree at a position that is not detached. -/
def replace (s : Scope) (label : String) (n : Node) : Except Fault Scope :=
  match s.index label with
  | .error e => .error e
  | .ok i =>
    if s.standing i = .detached then .error (s.fault (.detached label))
    else
      match s.tree.at? (s.location i) with
      | some _ =>
        .ok { s with tree := s.tree.set (s.location i) n, standings := s.settle i .live }
      | none => .error (s.fault (.noNode (s.location i)))

/-- Checks that no position is left vacated; the first one that is names the fault. -/
def finish (s : Scope) : Except Fault Unit :=
  match s.standings.findIdx? (· == .vacated) with
  | none => .ok ()
  | some i =>
    .error (s.fault (.vacated ((s.pattern.positions[i]?.map Position.label).getD "")))

/-! ### Calls that succeed -/

section

variable {s : Scope} {label : String} {i : Nat}

theorem literal_eq_ok (hi : s.live label = .ok i) {l : Literal}
    (hl : s.tree.at? (s.location i) = some (.predicate l)) : s.literal label = .ok l := by
  simp only [literal, payload, node, hi, hl, Node.literal?]

theorem take_eq_ok (hi : s.live label = .ok i) {n : Node}
    (hn : s.tree.at? (s.location i) = some n) :
    s.take label = .ok (n, { s with
      tree := s.tree.set (s.location i) (.bool false), standings := s.settle i .vacated }) := by
  simp only [take, hi, hn]

theorem replace_eq_ok (hi : s.pattern.indexOf? label = some i) (hs : s.standing i ≠ .detached)
    {m : Node} (hm : s.tree.at? (s.location i) = some m) (n : Node) :
    s.replace label n
      = .ok { s with tree := s.tree.set (s.location i) n, standings := s.settle i .live } := by
  simp only [replace, index, hi, if_neg hs, hm]

end

end Scope

/-! ### Actions -/

/-- A computation in a scope, which may end in a fault.  What it did to the tree before
the fault stays done. -/
abbrev Rewriting (α : Type) := ExceptT Fault (StateM Scope) α

/-- What a rule does where it matches. -/
abbrev Action := Rewriting Unit

namespace Rewriting

/-- Looks at the scope. -/
def read {α : Type} (get : Scope → Except Fault α) : Rewriting α := fun s => (get s, s)

/-- Ends in a fault with the given reason. -/
def fail {α : Type} (reason : String) : Rewriting α :=
  read fun s => .error (s.fault (.failed reason))

/-- A copy of the subtree at a live position. -/
def copyOf (label : String) : Rewriting Node := read (·.node label)

/-- Takes the subtree at a live position out of the tree. -/
def take (label : String) : Rewriting Node := fun s =>
  match s.take label with
  | .ok (n, s') => (.ok n, s')
  | .error e => (.error e, s)

/-- Puts a subtree at a position that is not detached. -/
def replace (label : String) (n : Node) : Rewriting Unit := fun s =>
  match s.replace label n with
  | .ok s' => (.ok (), s')
  | .error e => (.error e, s)

/-! ### Running an action call by call -/

section

variable {α β : Type} {s s' : Scope} {label : String}

/-- After a call that succeeds the action goes on with the answer. -/
theorem bind_of_ok {x : Rewriting α} {a : α} (h : x s = (.ok a, s')) (next : α → Rewriting β) :
    (x >>= next) s = next a s' := by
  simp only [bind, ExceptT.bind, ExceptT.mk, StateT.bind, ExceptT.bindCont, h]

theorem read_of_ok {get : Scope → Except Fault α} {a : α} (h : get s = .ok a) :
    read get s = (.ok a, s) := by
  simp only [read, h]

theorem take_of_ok {n : Node} (h : s.take label = .ok (n, s')) : take label s = (.ok n, s') := by
  simp only [take, h]

theorem replace_of_ok {n : Node} (h : s.replace label n = .ok s') :
    replace label n s = (.ok (), s') := by
  simp only [replace, h]

end

end Rewriting

end TreeRewriting

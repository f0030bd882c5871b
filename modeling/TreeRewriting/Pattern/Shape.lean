/-
TreeRewriting/Pattern/Shape.lean

The shape a pattern asks for: a tree of labels.

Design.  A position of a pattern has a label, and it may list positions that
its children have to fill.  The list is a group: in a fixed group, written with
parentheses, the positions stand for the first, second, … child; in a free
group, written with braces, for any distinct children.  A group lists at least
one position, so that a shape either is a label alone or has a first child.

`positions` flattens a shape, parents before their children and siblings in
order.  That is the order in which a binding lists its locations.
-/
namespace TreeRewriting

/-- How the positions of a group are assigned to children. -/
inductive Order where
  /-- the first position is the first child, and so on -/
  | fixed
  /-- the positions are distinct children, in any order -/
  | free
  deriving DecidableEq, Inhabited

/-- A tree of labels. -/
inductive Shape where
  | leaf (label : String)
  | group (label : String) (order : Order) (first : Shape) (rest : List Shape)
  deriving Inhabited

/-- Which children of its parent's node a position may take. -/
inductive Slot where
  /-- the position at the top of the pattern -/
  | root
  /-- the child of this index -/
  | fixed (index : Nat)
  /-- any child that no sibling has taken -/
  | free
  deriving DecidableEq, Inhabited

/-- One entry of a flattened shape.  The parent is given by its own place in the list. -/
structure Position where
  label : String
  parent : Option Nat
  slot : Slot
  minChildren : Nat
  deriving DecidableEq, Inhabited

/-- The slot of a position by its number in a group. -/
def Order.slot : Order → Nat → Slot
  | .fixed, i => .fixed i
  | .free, _ => .free

namespace Shape

/-- A label alone is a shape. -/
instance : Coe String Shape := ⟨.leaf⟩

/-- The label at the top of a shape. -/
def label : Shape → String
  | .leaf l => l
  | .group l _ _ _ => l

mutual

/-- The number of positions of a shape. -/
def size : Shape → Nat
  | .leaf _ => 1
  | .group _ _ s ss => size s + sizeList ss + 1

/-- The number of positions of a list of shapes. -/
def sizeList : List Shape → Nat
  | [] => 0
  | s :: ss => size s + sizeList ss

end

mutual

/-- The positions of a shape of which the first one has the given place, parent and
slot. -/
def positionsAt (place : Nat) (parent : Option Nat) (slot : Slot) : Shape → List Position
  | .leaf l => [⟨l, parent, slot, 0⟩]
  | .group l o s ss =>
    ⟨l, parent, slot, ss.length + 1⟩ :: positionsAt (place + 1) (some place) (o.slot 0) s ++
      positionsListAt (place + 1 + s.size) place o 1 ss

/-- The positions of siblings of which the first one has the given place and number. -/
def positionsListAt (place parent : Nat) (o : Order) (number : Nat) : List Shape → List Position
  | [] => []
  | s :: ss =>
    positionsAt place (some parent) (o.slot number) s ++
      positionsListAt (place + s.size) parent o (number + 1) ss

end

/-- The positions of a shape, parents before children, siblings in order. -/
def positions (s : Shape) : List Position := s.positionsAt 0 none .root

end Shape

/-! ### Text -/

/-- The mark before the positions of a group. -/
def Order.opening : Order → Char
  | .fixed => '('
  | .free => '\x7b'

/-- The mark behind the positions of a group. -/
def Order.closing : Order → Char
  | .fixed => ')'
  | .free => '\x7d'

namespace Shape

mutual

/-- The text of a shape, with a comma and a space between the positions of a group. -/
def text : Shape → String
  | .leaf l => l
  | .group l o s ss => l ++ o.opening.toString ++ text s ++ textRest ss ++ o.closing.toString

/-- The texts of further positions of a group. -/
def textRest : List Shape → String
  | [] => ""
  | s :: ss => ", " ++ text s ++ textRest ss

end

end Shape

end TreeRewriting

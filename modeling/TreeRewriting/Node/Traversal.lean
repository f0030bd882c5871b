/-
TreeRewriting/Node/Traversal.lean

Walks over a tree that carry locations along.

One walk collects the locations themselves, children before their parent.  The
other keeps what is still to be visited on a stack and checks that no node is
reached from more than one parent.  Which node stands at a location is told by
its address, so that a tree may be looked at whose operands are shared; where
each node has an address of its own, the location will do.
-/
import TreeRewriting.Node.Location

namespace TreeRewriting

/-- A node is reached once more, at this location. -/
structure SharedNode where
  location : Location
  deriving DecidableEq

/-- The message about a shared node. -/
def SharedNode.message (e : SharedNode) : String :=
  "node at " ++ e.location.text ++ " is shared with another parent slot"

namespace Node

/-! ### Collecting locations -/

mutual

/-- The locations of a tree that stands at a location, children before their parent. -/
def collect (here : Location) : Node → List Location
  | .leaf _ => [here]
  | .unary _ x => collect (here.child 0) x ++ [here]
  | .binary _ a b => collect (here.child 0) a ++ collect (here.child 1) b ++ [here]
  | .nary _ xs => collectFrom here 0 xs ++ [here]

/-- The locations in a list of siblings below a location, of which the first has the given
index. -/
def collectFrom (here : Location) (i : Nat) : List Node → List Location
  | [] => []
  | x :: xs => collect (here.child i) x ++ collectFrom here (i + 1) xs

end

/-! ### Checking with a stack -/

/-- Siblings below a location with the locations they stand at, where the first has the given
index. -/
def placedFrom (here : Location) (i : Nat) : List Node → List (Location × Node)
  | [] => []
  | x :: xs => (here.child i, x) :: placedFrom here (i + 1) xs

/-- The trees of siblings below a location are the siblings. -/
theorem map_placedFrom (here : Location) (i : Nat) (xs : List Node) :
    (placedFrom here i xs).map Prod.snd = xs := by
  induction xs generalizing i with
  | nil => rfl
  | cons x xs ih => rw [placedFrom, List.map_cons, ih]

section

variable {α : Type} [DecidableEq α]

/-- Visits the trees on a stack, with the addresses seen so far.  Each visit takes a tree off
and puts its children on, of which the last is visited next.  The result is the number of
addresses seen. -/
def checkFrom (address : Location → α) (seen : List α) :
    List (Location × Node) → Except SharedNode Nat
  | [] => .ok seen.length
  | (p, n) :: rest =>
    if address p ∈ seen then .error ⟨p⟩
    else checkFrom address (address p :: seen) ((placedFrom p 0 n.children).reverse ++ rest)
termination_by stack => sizeList (stack.map Prod.snd)
decreasing_by
  simp only [List.map_append, List.map_reverse, map_placedFrom, sizeList_append,
    sizeList_reverse, List.map_cons, sizeList, size_eq n]
  omega

/-- Checks that no node of a tree is reached twice, and counts the nodes. -/
def checkStrict (address : Location → α) (n : Node) : Except SharedNode Nat :=
  checkFrom address [] [([], n)]

end

end Node

end TreeRewriting

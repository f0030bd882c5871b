/-
TreeRewriting/Text/CodePoints.lean

Sets of characters given by their boundaries.

Design.  A set of code points is a list of numbers in ascending order.  Read
from zero upward, each number switches membership: the first is the least code
point inside, the second the least one above it that is outside again, and so
on.  A character belongs to the set iff an odd number of boundaries lies at or
below it.
-/
namespace TreeRewriting

/-- A set of code points, as the ascending list of the places where membership
switches. -/
structure CodePoints where
  boundaries : List Nat
  deriving DecidableEq

namespace CodePoints

/-- A character is inside iff an odd number of boundaries is at or below it. -/
def contains (s : CodePoints) (c : Char) : Bool :=
  (s.boundaries.takeWhile (· ≤ c.toNat)).length % 2 == 1

end CodePoints

end TreeRewriting

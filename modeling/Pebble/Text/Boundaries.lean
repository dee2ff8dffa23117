/-!
# Sets of characters given by their boundaries

A property of characters is tabulated as the increasing list of code points at which membership
changes: below the first boundary nothing belongs, from the first to the second everything does,
and so on. A code point belongs exactly when an odd number of boundaries lies at or below it.
-/

namespace Pebble.Text

/-- The code points at which membership in a set of characters changes, in increasing order. -/
structure Boundaries where
  points : Array Nat

/-- An odd number of changes at or below `c` leaves `c` inside. -/
def Boundaries.contains (b : Boundaries) (c : Char) : Bool :=
  b.points.countP (fun p ↦ p ≤ c.toNat) % 2 == 1

end Pebble.Text

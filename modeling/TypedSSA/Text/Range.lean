/-!
# Sets of characters

A set of characters is given by the ranges of code points that it is made of, in ascending order.
-/

namespace TypedSSA.Text

/-- Whether `c` lies in one of the ranges, both ends included. -/
def inRanges (ranges : List (Nat × Nat)) (c : Char) : Bool :=
  ranges.any fun r => decide (r.1 ≤ c.toNat ∧ c.toNat ≤ r.2)

end TypedSSA.Text

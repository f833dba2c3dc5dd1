/-! # Sets of code points given by ranges

A character property is stored as an increasing list of closed ranges of code points.
`CodeRanges.contains` decides membership. -/

namespace ClientLoom.Text

/-- A set of code points, written as closed ranges in increasing order. -/
structure CodeRanges where
  ranges : List (Nat × Nat)

namespace CodeRanges

/-- A code point belongs to the set when one of the ranges covers it. -/
def contains (s : CodeRanges) (n : Nat) : Bool :=
  s.ranges.any fun r => decide (r.1 ≤ n) && decide (n ≤ r.2)

end CodeRanges
end ClientLoom.Text

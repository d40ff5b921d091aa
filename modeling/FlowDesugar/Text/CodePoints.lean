/-!
# Sets of code points

A set of code points is a list of ranges, both ends included, in ascending order.
-/

namespace FlowDesugar.Text

/-- A set of code points as sorted ranges. -/
abbrev CodePoints := List (Nat × Nat)

/-- Membership of a code point. The search stops at the first range above it. -/
def CodePoints.has (ranges : CodePoints) (code : Nat) : Bool :=
  match ranges with
  | [] => false
  | (low, high) :: rest =>
    if code < low then false else if code ≤ high then true else CodePoints.has rest code

end FlowDesugar.Text

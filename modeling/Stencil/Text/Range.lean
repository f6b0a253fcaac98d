/-! # Sets of code points as increasing lists of closed ranges -/
namespace Stencil.Text

/-- Membership in a list of ranges in increasing order; the search stops at the first range
that begins past the code point. -/
def inRanges : List (Nat × Nat) → Nat → Bool
  | [], _ => false
  | (lo, hi) :: rest, n =>
    if n < lo then false else if n ≤ hi then true else inRanges rest n

end Stencil.Text

/-! Sets of characters given by ranges of code points. -/
namespace Gondola.Text

/-- Membership in a union of inclusive ranges. The ranges are sorted and disjoint, so the search
ends at the first range that starts above `n`. -/
def inRanges (n : Nat) : List (Nat × Nat) → Bool
  | [] => false
  | (lo, hi) :: rest => if n < lo then false else if n ≤ hi then true else inRanges n rest

/-- Ranges from code point `n` on, given by turns how many code points lie outside them and how many inside. -/
def rangesFrom (n : Nat) : List Nat → List (Nat × Nat)
  | gap :: size :: rest => (n + gap, n + gap + size - 1) :: rangesFrom (n + gap + size) rest
  | _ => []

end Gondola.Text

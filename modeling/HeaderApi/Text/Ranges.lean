/-
# Sorted tables of code point ranges

A character class beyond ASCII is a sorted list of closed ranges.  Membership stops at the first
range that begins above the code point.
-/

namespace HeaderApi.Text

/-- Membership of a code point in a sorted list of closed ranges. -/
def inRanges (n : Nat) : List (Nat × Nat) → Bool
  | [] => false
  | (lo, hi) :: rest => if n < lo then false else if n ≤ hi then true else inRanges n rest

@[simp] theorem inRanges_nil (n : Nat) : inRanges n [] = false := rfl

end HeaderApi.Text

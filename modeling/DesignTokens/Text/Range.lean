/-! # Ranges of code points -/

namespace DesignTokens.Text

/-- A range of code points, both ends included. -/
abbrev Range := Nat × Nat

/-- Whether a code point lies in one of the ranges, which stand in increasing order. -/
def inRanges (n : Nat) : List Range → Bool
  | [] => false
  | (low, high) :: rest => if n < low then false else n ≤ high || inRanges n rest

def isIn (c : Char) (ranges : List Range) : Bool := inRanges c.toNat ranges

end DesignTokens.Text

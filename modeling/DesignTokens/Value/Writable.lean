import DesignTokens.Value

/-! # Integers in decimal

Integers of any size can be counted with, but a decimal numeral has at most 4300 digits.  What has
more is neither read nor written; the attempt is a `NumeralFault`, which ends the work.
-/

namespace DesignTokens

/-- The greatest number of digits of a decimal numeral. -/
def longestNumeral : Nat := 4300

/-- The least number that needs more digits. -/
def numeralBound : Nat := Nat.pow 10 longestNumeral

@[irreducible]
def isWritable (n : Int) : Bool := n.natAbs < numeralBound

/-- Digits that are no number, or an integer that has no numeral. -/
inductive NumeralFault where
  | unreadable (segment : String)
  | unwritable (n : Int)
  deriving DecidableEq, Repr, Inhabited

namespace Value

mutual

def integers : Value → List Int
  | .int n => [n]
  | .list items => integersOfItems items
  | .object members => integersOfMembers members
  | _ => []

def integersOfItems : List Value → List Int
  | [] => []
  | v :: items => v.integers ++ integersOfItems items

def integersOfMembers : List (String × Value) → List Int
  | [] => []
  | (_, v) :: members => v.integers ++ integersOfMembers members

end

/-- The first integer in a value that has no numeral: the value cannot be shown. -/
def unwritable? (v : Value) : Option Int := v.integers.find? (!isWritable ·)

end Value

end DesignTokens

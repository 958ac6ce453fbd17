/-! # Binary floating-point numbers of 64 bits

A number is kept as its sign, significand and exponent, so that equality is decidable and every
operation is exact arithmetic on natural numbers.  `ofDecimal` reads a decimal to the nearest
number, a tie going to the even significand; `numerator` and `denominator` give the exact value.
-/

namespace DesignTokens

/-- A number `± significand · 2 ^ exponent`, an infinity, or no number.  A significand below
`2 ^ 52` comes with the least exponent, `-1074`. -/
inductive Binary64 where
  | finite (negative : Bool) (significand : Nat) (exponent : Int)
  | infinite (negative : Bool)
  | notANumber
  deriving DecidableEq, Repr, Inhabited

namespace Binary64

def leastExponent : Int := -1074

def greatestExponent : Int := 971

/-- `numerator / denominator` to the nearest integer, a tie to the even one. -/
def roundHalfEven (numerator denominator : Nat) : Nat :=
  let quotient := numerator / denominator
  let twice := 2 * (numerator % denominator)
  if twice < denominator then quotient
  else if denominator < twice then quotient + 1
  else quotient + quotient % 2

/-- The greatest `e` with `2 ^ e ≤ numerator / denominator`, for positive arguments. -/
def floorLog2 (numerator denominator : Nat) : Int :=
  let guess : Int := (Nat.log2 numerator : Int) - (Nat.log2 denominator : Int)
  let fits : Bool :=
    if guess ≥ 0 then denominator * Nat.pow 2 guess.toNat ≤ numerator
    else denominator ≤ numerator * Nat.pow 2 (-guess).toNat
  if fits then guess else guess - 1

/-- The number nearest to a positive quotient. -/
def ofRatio (negative : Bool) (numerator denominator : Nat) : Binary64 :=
  let exponent := max (floorLog2 numerator denominator - 52) leastExponent
  let significand :=
    if exponent ≥ 0 then roundHalfEven numerator (denominator * Nat.pow 2 exponent.toNat)
    else roundHalfEven (numerator * Nat.pow 2 (-exponent).toNat) denominator
  let carried := significand == Nat.pow 2 53
  let exponent := if carried then exponent + 1 else exponent
  let significand := if carried then Nat.pow 2 52 else significand
  if exponent > greatestExponent then .infinite negative
  else .finite negative significand exponent

/-- The number nearest to `± digits · 10 ^ power`.  Decimals far outside the range are not
expanded. -/
def ofDecimal (negative : Bool) (digits : Nat) (power : Int) : Binary64 :=
  let size : Int := (Nat.repr digits).length
  if digits = 0 ∨ power + size < -330 then .finite negative 0 leastExponent
  else if power + size > 320 then .infinite negative
  else if power ≥ 0 then ofRatio negative (digits * Nat.pow 10 power.toNat) 1
  else ofRatio negative digits (Nat.pow 10 (-power).toNat)

def isZero : Binary64 → Bool
  | .finite _ significand _ => significand == 0
  | _ => false

/-- The integer that the number is, if it is one. -/
def toInt? : Binary64 → Option Int
  | .finite negative significand exponent =>
    let sign : Int → Int := fun n => if negative then -n else n
    if exponent ≥ 0 then some (sign (significand * Nat.pow 2 exponent.toNat : Nat))
    else
      let unit := Nat.pow 2 (-exponent).toNat
      if significand % unit = 0 then some (sign (significand / unit : Nat)) else none
  | _ => none

/-- Numeric equality: the two zeros are equal, and what is no number equals nothing. -/
def sameNumber : Binary64 → Binary64 → Bool
  | .notANumber, _ => false
  | a, b => a == b || (a.isZero && b.isZero)

end Binary64

end DesignTokens

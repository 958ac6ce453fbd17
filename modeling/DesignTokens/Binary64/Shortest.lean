import DesignTokens.Binary64

/-! # The shortest decimal of a number

`shortest` finds the fewest significant digits that read back to the same number, and of the
decimals with that many digits the nearest one.  A number with significand `m` and exponent `q`
owns the interval between the midpoints to its neighbours; a grid of `n` significant digits has a
point in the interval exactly if one of the two grid points next to the number lies in it, so the
first `n` with a hit is the answer.

`Layout` says how such a decimal is written.
-/

namespace DesignTokens

namespace Binary64

/-- A positive decimal `digits · 10 ^ power`. -/
structure Decimal where
  digits : Nat
  power : Int
  deriving DecidableEq, Repr, Inhabited

def digitCount (n : Nat) : Nat := (Nat.repr n).length

/-- The `k` with `10 ^ (k - 1) ≤ numerator / denominator < 10 ^ k`, for positive arguments. -/
def magnitude (numerator denominator : Nat) : Int :=
  if denominator ≤ numerator then digitCount (numerator / denominator)
  else
    let ceiling := (denominator + numerator - 1) / numerator
    1 - (digitCount (ceiling - 1) : Int)

/-- The numbers between the two midpoints around a number, as numerators over one denominator. -/
structure Interval where
  low : Nat
  value : Nat
  high : Nat
  denominator : Nat
  closed : Bool

/-- The interval of reals that round to `significand · 2 ^ exponent`.  Below a power of two the
neighbour is only half as far; the ends belong to the interval when the significand is even. -/
def Interval.around (significand : Nat) (exponent : Int) : Interval :=
  let below := if significand = Nat.pow 2 52 ∧ exponent > leastExponent then 1 else 2
  let power := exponent - 2
  let scale := if power ≥ 0 then Nat.pow 2 power.toNat else 1
  { low := (4 * significand - below) * scale
    value := 4 * significand * scale
    high := (4 * significand + 2) * scale
    denominator := if power ≥ 0 then 1 else Nat.pow 2 (-power).toNat
    closed := significand % 2 = 0 }

def Interval.holds (i : Interval) (numerator denominator : Nat) : Bool :=
  let point := numerator * i.denominator
  if i.closed then i.low * denominator ≤ point && point ≤ i.high * denominator
  else i.low * denominator < point && point < i.high * denominator

/-- The decimal nearest to the interval's number among those that are multiples of
`10 ^ power` and lie in the interval. -/
def Interval.nearest? (i : Interval) (power : Int) : Option Decimal :=
  let up := if power ≥ 0 then Nat.pow 10 power.toNat else 1
  let down := if power ≥ 0 then 1 else Nat.pow 10 (-power).toNat
  let unit := i.denominator * up
  let lower := i.value * down / unit
  let lowerFits := i.holds (lower * up) down
  let upperFits := i.holds ((lower + 1) * up) down
  let rest := 2 * (i.value * down % unit)
  let takeLower := rest < unit || (rest == unit && lower % 2 == 0)
  match lowerFits, upperFits with
  | true, true => some ⟨if takeLower then lower else lower + 1, power⟩
  | true, false => some ⟨lower, power⟩
  | false, true => some ⟨lower + 1, power⟩
  | false, false => none

/-- The shortest decimal of a positive number. -/
def shortest (significand : Nat) (exponent : Int) : Decimal :=
  let i := Interval.around significand exponent
  let size := magnitude i.value i.denominator
  let found := (List.range 17).findSome? fun n => i.nearest? (size - (n + 1 : Nat))
  found.getD ⟨significand, exponent⟩

/-- How a number is written. -/
structure Layout where
  /-- The least decimal exponent that is written out in positions. -/
  leastPositional : Int
  leastExponential : Int
  mark : String
  exponentDigits : Nat
  /-- What ends a number that has no fraction. -/
  wholeTail : String
  infinity : String
  notANumber : String

def paddedDigits (width n : Nat) : String :=
  let digits := Nat.repr n
  String.ofList (List.replicate (width - digits.length) '0') ++ digits

/-- The digits of a decimal without its trailing zeros, and its decimal exponent: the place of the
first digit. -/
def Decimal.scientific (d : Decimal) : List Char × Int :=
  let all := (Nat.repr d.digits).toList
  let kept := (all.reverse.dropWhile (· == '0')).reverse
  (kept, d.power + all.length - 1)

/-- The text of a positive decimal. -/
def Layout.decimal (l : Layout) (d : Decimal) : String :=
  let (digits, place) := d.scientific
  let count := digits.length
  if l.leastPositional ≤ place ∧ place < l.leastExponential then
    if place < 0 then
      "0." ++ String.ofList (List.replicate ((-place).toNat - 1) '0' ++ digits)
    else
      let whole := place.toNat + 1
      if count ≤ whole then
        String.ofList (digits ++ List.replicate (whole - count) '0') ++ l.wholeTail
      else String.ofList (digits.take whole) ++ "." ++ String.ofList (digits.drop whole)
  else
    let mantissa :=
      match digits with
      | [] => "0"
      | [c] => String.ofList [c]
      | c :: rest => String.ofList (c :: '.' :: rest)
    let sign := if place < 0 then "-" else "+"
    mantissa ++ l.mark ++ sign ++ paddedDigits l.exponentDigits place.natAbs

/-- The text of a number. -/
def Layout.render (l : Layout) : Binary64 → String
  | .finite negative significand exponent =>
    let sign := if negative then "-" else ""
    if significand = 0 then sign ++ "0" ++ l.wholeTail
    else sign ++ l.decimal (shortest significand exponent)
  | .infinite negative => (if negative then "-" else "") ++ l.infinity
  | .notANumber => l.notANumber

end Binary64

end DesignTokens

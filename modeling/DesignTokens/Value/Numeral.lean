import DesignTokens.Value

/-! # Numerals

A numeral is a sign, digits, an optional fraction and an optional exponent.  Without a fraction
and an exponent it is an integer, else a binary number.
-/

namespace DesignTokens

def isAsciiDigit (c : Char) : Bool := '0' ≤ c && c ≤ '9'

/-- The number that ASCII digits write in a base up to sixteen. -/
def digitsValue (base : Nat) (cs : List Char) : Nat :=
  cs.foldl (fun total c =>
    let digit :=
      if isAsciiDigit c then c.toNat - '0'.toNat
      else if 'a' ≤ c ∧ c ≤ 'f' then c.toNat - 'a'.toNat + 10
      else c.toNat - 'A'.toNat + 10
    base * total + digit) 0

/-- The parts of a numeral. -/
structure Numeral where
  negative : Bool
  whole : List Char
  fraction : Option (List Char)
  exponent : Option (Bool × List Char)
  deriving Inhabited

namespace Numeral

/-- The exponent after its mark: an optional sign and at least one digit. -/
def exponentOf? (cs : List Char) : Option (Bool × List Char) :=
  let (negative, digits) :=
    match cs with
    | '-' :: rest => (true, rest)
    | '+' :: rest => (false, rest)
    | _ => (false, cs)
  if !digits.isEmpty && digits.all isAsciiDigit then some (negative, digits) else none

/-- The parts of an unsigned numeral, whatever the number of digits on either side of the point. -/
def ofUnsigned? (negative : Bool) (cs : List Char) : Option Numeral :=
  let whole := cs.takeWhile isAsciiDigit
  let rest := cs.dropWhile isAsciiDigit
  let (fraction, rest) :=
    match rest with
    | '.' :: after => (some (after.takeWhile isAsciiDigit), after.dropWhile isAsciiDigit)
    | _ => (none, rest)
  match rest with
  | [] => some ⟨negative, whole, fraction, none⟩
  | c :: after =>
    if c = 'e' ∨ c = 'E' then
      (exponentOf? after).map fun e => ⟨negative, whole, fraction, some e⟩
    else none

/-- Whether the digits are those that JSON allows: no leading zero, and digits on both sides of a
point. -/
def isStrict (n : Numeral) : Bool :=
  (match n.whole with
    | [] => false
    | [_] => true
    | c :: _ => c != '0') &&
  (match n.fraction with
    | some [] => false
    | _ => true)

def wholeValue (n : Numeral) : Int :=
  let magnitude : Int := digitsValue 10 n.whole
  if n.negative then -magnitude else magnitude

/-- The nearest binary number. -/
def toBinary64 (n : Numeral) : Binary64 :=
  let fraction := n.fraction.getD []
  let power : Int :=
    match n.exponent with
    | none => 0
    | some (negative, digits) =>
      let magnitude : Int := digitsValue 10 digits
      if negative then -magnitude else magnitude
  Binary64.ofDecimal n.negative (digitsValue 10 (n.whole ++ fraction)) (power - fraction.length)

def toValue (n : Numeral) : Value :=
  if n.fraction.isNone && n.exponent.isNone then .int n.wholeValue else .real n.toBinary64

end Numeral

end DesignTokens

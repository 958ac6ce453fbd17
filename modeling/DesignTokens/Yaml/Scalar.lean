import DesignTokens.Value.Numeral

/-! # Scalars of YAML

A scalar without quotes is a truth value, a null, an integer, a number or a text, by its form.
Integers may be binary, octal, hexadecimal or in base sixty, and digits may be grouped by
underscores.
-/

namespace DesignTokens.Yaml

def nullForms : List String := ["", "~", "null", "Null", "NULL"]

def trueForms : List String :=
  ["yes", "Yes", "YES", "true", "True", "TRUE", "on", "On", "ON"]

def falseForms : List String :=
  ["no", "No", "NO", "false", "False", "FALSE", "off", "Off", "OFF"]

/-- Whether characters are digits of some class, grouped by underscores, at least one character. -/
def areDigits (isDigit : Char → Bool) (cs : List Char) : Bool :=
  !cs.isEmpty && cs.all fun c => isDigit c || c = '_'

def ungrouped (cs : List Char) : List Char := cs.filter (· != '_')

def isHexDigit (c : Char) : Bool :=
  isAsciiDigit c || ('a' ≤ c && c ≤ 'f') || ('A' ≤ c && c ≤ 'F')

/-- The parts of a text between colons. -/
def colonParts (cs : List Char) : List (List Char) :=
  cs.foldr (fun c parts =>
    if c = ':' then [] :: parts
    else
      match parts with
      | [] => [[c]]
      | part :: rest => (c :: part) :: rest) [[]]

def isSixtieth (cs : List Char) : Bool :=
  match cs with
  | [c] => isAsciiDigit c
  | [c, d] => '0' ≤ c && c ≤ '5' && isAsciiDigit d
  | _ => false

def sixtieths (parts : List (List Char)) : Nat :=
  parts.foldl (fun n part => 60 * n + digitsValue 10 (ungrouped part)) 0

def startsPositive (cs : List Char) : Bool :=
  match cs with
  | c :: _ => '1' ≤ c && c ≤ '9'
  | [] => false

/-- The natural number that a text without a sign writes. -/
def natural? (cs : List Char) : Option Nat :=
  match cs with
  | ['0'] => some 0
  | '0' :: 'b' :: rest =>
    if areDigits (fun c => c = '0' || c = '1') rest then some (digitsValue 2 (ungrouped rest))
    else none
  | '0' :: 'x' :: rest =>
    if areDigits isHexDigit rest then some (digitsValue 16 (ungrouped rest)) else none
  | '0' :: rest =>
    if areDigits (fun c => '0' ≤ c && c ≤ '7') rest then some (digitsValue 8 (ungrouped rest))
    else none
  | _ =>
    if startsPositive cs && areDigits isAsciiDigit cs then some (digitsValue 10 (ungrouped cs))
    else
      match colonParts cs with
      | first :: second :: rest =>
        if startsPositive first && areDigits isAsciiDigit first &&
            (second :: rest).all isSixtieth then
          some (sixtieths (first :: second :: rest))
        else none
      | _ => none

def signed (cs : List Char) : Bool × List Char :=
  match cs with
  | '-' :: rest => (true, rest)
  | '+' :: rest => (false, rest)
  | _ => (false, cs)

/-- Whether an exponent has the form of YAML, in which the sign is not left out. -/
def isSignedExponent (cs : List Char) : Bool :=
  match cs with
  | '-' :: rest => !rest.isEmpty && rest.all isAsciiDigit
  | '+' :: rest => !rest.isEmpty && rest.all isAsciiDigit
  | _ => false

/-- The number with a point that digits write after a sign, if there is one.  Only without a sign
may the point come first. -/
def pointed? (hasSign negative : Bool) (cs : List Char) : Option Binary64 :=
  let whole := cs.takeWhile (· != '.')
  match cs.dropWhile (· != '.') with
  | '.' :: rest =>
    let fraction := rest.takeWhile fun c => isAsciiDigit c || c = '_'
    let exponent := rest.dropWhile fun c => isAsciiDigit c || c = '_'
    let exponentFits :=
      match exponent with
      | [] => true
      | c :: digits => (c = 'e' || c = 'E') && isSignedExponent digits
    let wholeFits :=
      match whole with
      | [] => !hasSign && (fraction.head?.map isAsciiDigit).getD false
      | c :: more => isAsciiDigit c && more.all fun c => isAsciiDigit c || c = '_'
    if wholeFits && exponentFits then
      some
        { negative, whole := ungrouped whole, fraction := some (ungrouped fraction)
          exponent := (match exponent with
            | [] => none
            | _ :: digits => Numeral.exponentOf? digits : Option (Bool × List Char))
          : Numeral }.toBinary64
    else none
  | _ => none

def real? (cs : List Char) : Option Binary64 :=
  let (negative, rest) := signed cs
  let text := String.ofList rest
  if text = ".inf" ∨ text = ".Inf" ∨ text = ".INF" then some (.infinite negative)
  else if String.ofList cs = ".nan" ∨ String.ofList cs = ".NaN" ∨ String.ofList cs = ".NAN" then
    some .notANumber
  else pointed? (rest.length < cs.length) negative rest

/-- The value of a scalar without quotes. -/
def scalar (cs : List Char) : Value :=
  let text := String.ofList cs
  if nullForms.contains text then .null
  else if trueForms.contains text then .bool true
  else if falseForms.contains text then .bool false
  else
    let (negative, rest) := signed cs
    match natural? rest with
    | some n => .int (if negative then -n else n)
    | none =>
      match real? cs with
      | some x => .real x
      | none => .text text

end DesignTokens.Yaml

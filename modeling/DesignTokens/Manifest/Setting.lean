import DesignTokens.Manifest.Fault
import DesignTokens.Text.Blank

/-! # Settings

A setting is read leniently: a truth value may be written as a word or as 0 or 1, an integer as a
truth value, as a number without a fraction or as a text.  What no setting can be read from is a
`SettingFault`.
-/

namespace DesignTokens.Setting

def optionalText : Option Value → Except SettingFault (Option String)
  | none => .ok none
  | some .null => .ok none
  | some (.text s) => .ok (some s)
  | some _ => .error .notText

/-- A text with the ASCII capitals written small. -/
def lowerAscii (s : String) : String :=
  String.ofList (s.toList.map fun c =>
    if 'A' ≤ c ∧ c ≤ 'Z' then Char.ofNat (c.toNat + 32) else c)

def falseWords : List String := ["0", "off", "f", "false", "n", "no"]

def trueWords : List String := ["1", "on", "t", "true", "y", "yes"]

/-- A truth value. -/
def truthValue : Value → Except SettingFault Bool
  | .bool b => .ok b
  | .int n =>
    if n = 0 then .ok false else if n = 1 then .ok true else .error .unknownTruthValue
  | .text s =>
    if falseWords.contains (lowerAscii s) then .ok false
    else if trueWords.contains (lowerAscii s) then .ok true
    else .error .unknownTruthValue
  | .real x =>
    if x.toInt? = some 0 then .ok false
    else if x.toInt? = some 1 then .ok true
    else .error .notTruthValue
  | _ => .error .notTruthValue

/-! ## Integers -/

/-- Whether a character is white space around an integer: the separators U+001C to U+001F are
not. -/
def isPadding (c : Char) : Bool := Text.isBlank c && !(0x1c ≤ c.toNat && c.toNat ≤ 0x1f)

/-- Digits without a leading zero, after an optional minus sign. -/
def canonicalInteger? (cs : List Char) : Option Int :=
  let (negative, digits) :=
    match cs with
    | '-' :: rest => (true, rest)
    | _ => (false, cs)
  let leadingZero :=
    match digits with
    | '0' :: _ :: _ => true
    | _ => false
  if digits.isEmpty || !digits.all Char.isDigit || leadingZero then none
  else
    let magnitude : Int := digits.foldl (fun n c => 10 * n + (c.toNat - '0'.toNat)) 0
    some (if negative then -magnitude else magnitude)

/-- A numeral without its leading zeros, among which single underscores may stand.  One zero is
kept before a point or at the end. -/
def withoutZeros : List Char → Option (List Char)
  | '0' :: rest =>
    match rest.dropWhile fun c => c = '0' || c = '_' with
    | [] => some [((('0' :: rest).getLast?).getD '0')]
    | '.' :: after =>
      let skipped := ('0' :: rest.takeWhile fun c => c = '0' || c = '_')
      some ((skipped.getLast?.getD '0') :: '.' :: after)
    | c :: after => if c.isDigit then some (c :: after) else none
  | c :: rest => if c.isDigit || c = '-' then some (c :: rest) else none
  | [] => none

/-- A numeral without a fraction of zeros. -/
def withoutZeroFraction (cs : List Char) : List Char :=
  match cs.dropWhile (· != '.') with
  | '.' :: after => if after.all (· == '0') then cs.takeWhile (· != '.') else cs
  | _ => cs

def hasDoubleUnderscore : List Char → Bool
  | '_' :: '_' :: _ => true
  | _ :: rest => hasDoubleUnderscore rest
  | [] => false

def withoutUnderscores (cs : List Char) : List Char :=
  if cs.head? = some '_' ∨ cs.getLast? = some '_' ∨ hasDoubleUnderscore cs then cs
  else cs.filter (· != '_')

/-- The numeral in a text that may be padded, have a plus sign, leading zeros, underscores and a
fraction of zeros. -/
def cleanInteger? (cs : List Char) : Option (List Char) :=
  let cs := ((cs.dropWhile isPadding).reverse.dropWhile isPadding).reverse
  let unsigned :=
    match cs with
    | '+' :: '-' :: _ => none
    | '+' :: rest => some rest
    | _ => some cs
  (unsigned.bind withoutZeros).map fun cs => withoutUnderscores (withoutZeroFraction cs)

def integerOfText (s : String) : Except SettingFault Int :=
  let cs := s.toList
  match (canonicalInteger? cs).or ((cleanInteger? cs).bind canonicalInteger?) with
  | some n => if cs.length > longestNumeral then .error .hugeInteger else .ok n
  | none => .error .unreadableInteger

/-- An integer. -/
def integer : Value → Except SettingFault Int
  | .bool b => .ok (if b then 1 else 0)
  | .int n => .ok n
  | .real x =>
    match x with
    | .finite _ _ _ =>
      match x.toInt? with
      | some n => if n.natAbs < Nat.pow 2 63 then .ok n else .error .hugeInteger
      | none => .error .fraction
    | _ => .error .infinite
  | .text s => integerOfText s
  | _ => .error .notInteger

def positiveInteger (v : Value) : Except SettingFault Int :=
  match integer v with
  | .ok n => if n < 1 then .error .belowOne else .ok n
  | .error fault => .error fault

end DesignTokens.Setting

import DesignTokens.Text.Quoted
import DesignTokens.Toml.Draft
import DesignTokens.Value.Numeral

/-! # Scalars of TOML

Texts, numbers and points in time.  Each reader takes what it can from the beginning of a text and
gives back the rest.
-/

namespace DesignTokens.Toml

/-- Whether a character may stand neither in a text nor in a comment. -/
def isForbidden (c : Char) : Bool := (c.toNat < 0x20 && c != '\t') || c.toNat = 0x7f

/-- Whether a character may not stand in a text of several lines. -/
def isForbiddenInBlock (c : Char) : Bool := isForbidden c && c != '\n'

/-- What follows a text that opens or closes with the same character three times. -/
def afterTriple? (quote : Char) : List Char → Option (List Char)
  | a :: b :: c :: rest => if a = quote && b = quote && c = quote then some rest else none
  | _ => none

/-! ## Texts -/

/-- A text in single quotes, after the opening one. -/
def literalText : List Char → Option (List Char × List Char)
  | [] => none
  | c :: rest =>
    if c = Text.singleQuote then some ([], rest)
    else if isForbidden c then none
    else (literalText rest).map fun (read, rest) => (c :: read, rest)

/-- A text between three single quotes, after the opening ones. -/
def literalBlock : List Char → Option (List Char × List Char)
  | [] => none
  | c :: rest =>
    match afterTriple? Text.singleQuote (c :: rest) with
    | some after => some ([], after)
    | none =>
      if isForbiddenInBlock c then none
      else (literalBlock rest).map fun (read, rest) => (c :: read, rest)

/-- Where the reading of a text with escapes stands. -/
inductive TextPlace where
  | plain
  | escape
  | codePoint (missing value : Nat)
  /-- A line is continued: blanks are passed over, once a line end was crossed those after it as
  well. -/
  | joint (crossed : Bool)

/-- The character that an escape of one letter stands for. -/
def shortEscapeOf? (c : Char) : Option Char :=
  match c with
  | 'b' => some '\x08'
  | 't' => some '\t'
  | 'n' => some '\n'
  | 'f' => some '\x0c'
  | 'r' => some '\r'
  | '\\' => some '\\'
  | _ => if c = Text.doubleQuote then some c else none

/-- What one character of a text with escapes leads to. -/
inductive TextStep where
  | close (rest : List Char)
  | keep (c : Char)
  | go (place : TextPlace)

/-- A character outside an escape, and the rest after it. -/
def plainStep (block : Bool) (c : Char) (rest : List Char) : Option TextStep :=
  if c = Text.doubleQuote then
    if block then
      match afterTriple? Text.doubleQuote (c :: rest) with
      | some after => some (.close after)
      | none => some (.keep c)
    else some (.close rest)
  else if c = '\\' then some (.go .escape)
  else if (if block then isForbiddenInBlock c else isForbidden c) then none
  else some (.keep c)

def escapeStep (block : Bool) (c : Char) : Option TextStep :=
  if block && (c = ' ' || c = '\t') then some (.go (.joint false))
  else if block && c = '\n' then some (.go (.joint true))
  else if c = 'u' then some (.go (.codePoint 4 0))
  else if c = 'U' then some (.go (.codePoint 8 0))
  else (shortEscapeOf? c).map .keep

def isHexadecimal (c : Char) : Bool :=
  isAsciiDigit c || ('a' ≤ c && c ≤ 'f') || ('A' ≤ c && c ≤ 'F')

def codePointStep (missing value : Nat) (c : Char) : Option TextStep :=
  if isHexadecimal c then
    let value := 16 * value + digitsValue 16 [c]
    if missing > 1 then some (.go (.codePoint (missing - 1) value))
    else if value.isValidChar then some (.keep (Char.ofNat value))
    else none
  else none

/-- A character of a text with escapes. -/
def textStep (block : Bool) (place : TextPlace) (c : Char) (rest : List Char) : Option TextStep :=
  match place with
  | .plain => plainStep block c rest
  | .escape => escapeStep block c
  | .codePoint missing value => codePointStep missing value c
  | .joint crossed =>
    if c = ' ' || c = '\t' then some (.go (.joint crossed))
    else if c = '\n' then some (.go (.joint true))
    else if crossed then plainStep block c rest
    else none

/-- A text with escapes, from a place after the opening quotes on. -/
def escapedText (block : Bool) : TextPlace → List Char → Option (List Char × List Char)
  | _, [] => none
  | place, c :: rest =>
    match textStep block place c rest with
    | none => none
    | some (.close after) => some ([], after)
    | some (.keep c) => (escapedText block .plain rest).map fun (read, rest) => (c :: read, rest)
    | some (.go next) => escapedText block next rest

/-- A text to which up to two more quotes belong that stand after the closing ones. -/
def withQuotes (quote : Char) : List Char × List Char → List Char × List Char
  | (read, rest) =>
    let extra := (rest.takeWhile (· == quote)).take 2
    (read ++ extra, rest.drop extra.length)

def withoutFirstLineEnd : List Char → List Char
  | '\n' :: rest => rest
  | cs => cs

/-- A text of one or several lines. -/
def text? (cs : List Char) : Option (String × List Char) :=
  let read :=
    match afterTriple? Text.doubleQuote cs, afterTriple? Text.singleQuote cs, cs with
    | some rest, _, _ =>
      (escapedText true .plain (withoutFirstLineEnd rest)).map (withQuotes Text.doubleQuote)
    | _, some rest, _ =>
      (literalBlock (withoutFirstLineEnd rest)).map (withQuotes Text.singleQuote)
    | _, _, c :: rest =>
      if c = Text.doubleQuote then escapedText false .plain rest
      else if c = Text.singleQuote then literalText rest
      else none
    | _, _, [] => none
  read.map fun (read, rest) => (String.ofList read, rest)

/-! ## Numbers -/

/-- Digits after a digit, among which single underscores may stand. -/
def moreDigits (isDigit : Char → Bool) : List Char → List Char × List Char
  | [] => ([], [])
  | [c] => if isDigit c then ([c], []) else ([], [c])
  | c :: d :: rest =>
    if isDigit c then
      let (digits, rest) := moreDigits isDigit (d :: rest)
      (c :: digits, rest)
    else if c = '_' && isDigit d then
      let (digits, rest) := moreDigits isDigit rest
      (d :: digits, rest)
    else ([], c :: d :: rest)

def digits? (isDigit : Char → Bool) : List Char → Option (List Char × List Char)
  | [] => none
  | c :: rest => if isDigit c then some (moreDigits isDigit (c :: rest)) else none

def baseOf? : Char → Option (Nat × (Char → Bool))
  | 'x' => some (16, isHexadecimal)
  | 'o' => some (8, fun c => '0' ≤ c && c ≤ '7')
  | 'b' => some (2, fun c => c = '0' || c = '1')
  | _ => none

/-- An integer in another base than ten. -/
def basedInteger? : List Char → Option (Item × List Char)
  | '0' :: letter :: rest => do
    let (base, isDigit) ← baseOf? letter
    let (digits, rest) ← digits? isDigit rest
    return (.int (digitsValue base digits), rest)
  | _ => none

def signOf : List Char → Bool × List Char
  | '-' :: rest => (true, rest)
  | '+' :: rest => (false, rest)
  | cs => (false, cs)

/-- The digits before a point: a zero alone, or digits that begin with another one. -/
def wholeDigits? : List Char → Option (List Char × List Char)
  | '0' :: rest => some (['0'], rest)
  | cs => digits? isAsciiDigit cs

/-- The digits after a point, if there are any. -/
def fraction (cs : List Char) : Option (List Char) × List Char :=
  match cs with
  | '.' :: after =>
    match digits? isAsciiDigit after with
    | some (digits, rest) => (some digits, rest)
    | none => (none, cs)
  | _ => (none, cs)

def exponent (cs : List Char) : Option (Bool × List Char) × List Char :=
  match cs with
  | c :: after =>
    if c = 'e' || c = 'E' then
      let (negative, after) := signOf after
      match digits? isAsciiDigit after with
      | some (digits, rest) => (some (negative, digits), rest)
      | none => (none, cs)
    else (none, cs)
  | [] => (none, cs)

/-- A number in base ten: without a fraction and an exponent it is an integer. -/
def decimal? (cs : List Char) : Option (Item × List Char) := do
  let (negative, rest) := signOf cs
  let (whole, rest) ← wholeDigits? rest
  let (fraction, rest) := fraction rest
  let (exponent, rest) := exponent rest
  let numeral : Numeral := ⟨negative, whole, fraction, exponent⟩
  let item := if fraction.isNone && exponent.isNone then Item.int numeral.wholeValue
    else .real numeral.toBinary64
  return (item, rest)

/-- An infinite number or the number that is none. -/
def special? (cs : List Char) : Option (Item × List Char) :=
  let (negative, rest) := signOf cs
  match rest with
  | 'i' :: 'n' :: 'f' :: rest => some (.real (.infinite negative), rest)
  | 'n' :: 'a' :: 'n' :: rest => some (.real .notANumber, rest)
  | _ => none

/-! ## Points in time -/

/-- A number of exactly so many digits that lies between two numbers. -/
def numberBetween? (width least greatest : Nat) (cs : List Char) : Option (Nat × List Char) :=
  let digits := cs.take width
  let n := digitsValue 10 digits
  if digits.length = width && digits.all isAsciiDigit && least ≤ n && n ≤ greatest then
    some (n, cs.drop width)
  else none

def mark? (c : Char) : List Char → Option (List Char)
  | d :: rest => if d = c then some rest else none
  | [] => none

def daysOf (year month : Nat) : Nat :=
  if month = 2 then
    if year % 4 = 0 && (year % 100 != 0 || year % 400 = 0) then 29 else 28
  else if [4, 6, 9, 11].contains month then 30
  else 31

def afterDate? (cs : List Char) : Option (List Char) := do
  let (year, cs) ← numberBetween? 4 1 9999 cs
  let (month, cs) ← numberBetween? 2 1 12 (← mark? '-' cs)
  let (_, cs) ← numberBetween? 2 1 (daysOf year month) (← mark? '-' cs)
  return cs

def afterFraction (cs : List Char) : List Char :=
  match cs with
  | '.' :: c :: rest => if isAsciiDigit c then rest.dropWhile isAsciiDigit else cs
  | _ => cs

def afterTime? (cs : List Char) : Option (List Char) := do
  let (_, cs) ← numberBetween? 2 0 23 cs
  let (_, cs) ← numberBetween? 2 0 59 (← mark? ':' cs)
  let (_, cs) ← numberBetween? 2 0 59 (← mark? ':' cs)
  return afterFraction cs

/-- The rest after a distance from universal time. -/
def afterOffset? (cs : List Char) : Option (List Char) := do
  let (_, cs) ← numberBetween? 2 0 23 cs
  let (_, cs) ← numberBetween? 2 0 59 (← mark? ':' cs)
  return cs

/-- The rest after an optional time zone. -/
def afterZone (cs : List Char) : List Char :=
  match cs with
  | c :: rest =>
    if c = 'Z' || c = 'z' then rest
    else if c = '+' || c = '-' then (afterOffset? rest).getD cs
    else cs
  | [] => cs

def moment? (cs : List Char) : Option (Item × List Char) :=
  match afterDate? cs with
  | some rest =>
    let time :=
      match rest with
      | c :: rest => if c = 'T' || c = 't' || c = ' ' then afterTime? rest else none
      | [] => none
    match time with
    | some rest => some (.moment .dateTime, afterZone rest)
    | none => some (.moment .date, rest)
  | none => (afterTime? cs).map fun rest => (.moment .time, rest)

def truthValue? : List Char → Option (Item × List Char)
  | 't' :: 'r' :: 'u' :: 'e' :: rest => some (.bool true, rest)
  | 'f' :: 'a' :: 'l' :: 's' :: 'e' :: rest => some (.bool false, rest)
  | _ => none

def scalar? (cs : List Char) : Option (Item × List Char) :=
  ((text? cs).map fun (s, rest) => (.text s, rest)).or
    ((truthValue? cs).or
      ((moment? cs).or ((basedInteger? cs).or ((decimal? cs).or (special? cs)))))

end DesignTokens.Toml

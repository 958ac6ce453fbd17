import DesignTokens.Value.Numeral

/-! # Reading JSON

Reading has two stages, both driven by the data alone: `lex` cuts a text into lexemes one character
at a time, and `Construction.step` builds a value from the lexemes on a stack of open lists and
objects.  A member that comes twice keeps its first place and its last value.
-/

namespace DesignTokens.Json

/-- A lexeme: punctuation, a text in quotes or a literal value. -/
inductive Lexeme where
  | mark (c : Char)
  | text (s : String)
  | literal (v : Value)
  deriving Inhabited

/-- The blanks that JSON allows between lexemes. -/
def isGap (c : Char) : Bool := c = ' ' || c = '\t' || c = '\n' || c = '\r'

def isMark (c : Char) : Bool :=
  c = '[' || c = ']' || c = '{' || c = '}' || c = ',' || c = ':'

/-- The value of a word outside quotes. -/
def literal? (word : List Char) : Option Value :=
  match String.ofList word with
  | "null" => some .null
  | "true" => some (.bool true)
  | "false" => some (.bool false)
  | "NaN" => some (.real .notANumber)
  | "Infinity" => some (.real (.infinite false))
  | "-Infinity" => some (.real (.infinite true))
  | _ =>
    let numeral :=
      match word with
      | '-' :: digits => Numeral.ofUnsigned? true digits
      | _ => Numeral.ofUnsigned? false word
    numeral.bind fun n => if n.isStrict then some n.toValue else none

/-- The characters of a text given by code units, in which a pair of surrogates is one character
and a lone surrogate stands for a character that is not known. -/
def ofUnits : List Nat → List Char
  | [] => []
  | [u] => [if 0xd800 ≤ u ∧ u < 0xe000 then '\ufffd' else Char.ofNat u]
  | u :: w :: rest =>
    if 0xd800 ≤ u ∧ u < 0xdc00 ∧ 0xdc00 ≤ w ∧ w < 0xe000 then
      Char.ofNat (0x10000 + (u - 0xd800) * 0x400 + (w - 0xdc00)) :: ofUnits rest
    else
      (if 0xd800 ≤ u ∧ u < 0xe000 then '\ufffd' else Char.ofNat u) :: ofUnits (w :: rest)

/-- Where the reading of characters stands.  What was read of a word or text is kept in reverse. -/
inductive Place where
  | gap
  | word (read : List Char)
  | quoted (read : List Nat)
  | escape (read : List Nat)
  | codePoint (read : List Nat) (missing value : Nat)

/-- The character that a short escape stands for. -/
def shortEscape? : Char → Option Nat
  | 'n' => some 0x0a
  | 'r' => some 0x0d
  | 't' => some 0x09
  | 'b' => some 0x08
  | 'f' => some 0x0c
  | '/' => some 0x2f
  | '\\' => some 0x5c
  | c => if c.toNat = 0x22 then some 0x22 else none

def hexValue? (c : Char) : Option Nat :=
  if isAsciiDigit c ∨ ('a' ≤ c ∧ c ≤ 'f') ∨ ('A' ≤ c ∧ c ≤ 'F') then some (digitsValue 16 [c])
  else none

/-- What a character means between two lexemes. -/
def startLexeme (c : Char) : Place × List Lexeme :=
  if isGap c then (.gap, [])
  else if isMark c then (.gap, [.mark c])
  else if c.toNat = 0x22 then (.quoted [], [])
  else (.word [c], [])

/-- One character: the place after it and the lexemes that it ends. -/
def stepLexeme : Place → Char → Option (Place × List Lexeme)
  | .gap, c => some (startLexeme c)
  | .word read, c =>
    if isGap c || isMark c || c.toNat = 0x22 then do
      let v ← literal? read.reverse
      let (place, lexemes) := startLexeme c
      return (place, .literal v :: lexemes)
    else some (.word (c :: read), [])
  | .quoted read, c =>
    if c.toNat = 0x22 then some (.gap, [.text (String.ofList (ofUnits read.reverse))])
    else if c = '\\' then some (.escape read, [])
    else if c.toNat < 0x20 then none
    else some (.quoted (c.toNat :: read), [])
  | .escape read, c =>
    if c = 'u' then some (.codePoint read 4 0, [])
    else (shortEscape? c).map fun u => (.quoted (u :: read), [])
  | .codePoint read missing value, c => do
    let digit ← hexValue? c
    let value := 16 * value + digit
    if missing ≤ 1 then return (.quoted (value :: read), [])
    else return (.codePoint read (missing - 1) value, [])

/-- The lexemes of a text, from a place on. -/
def lex : Place → List Char → Option (List Lexeme)
  | .gap, [] => some []
  | .word read, [] => (literal? read.reverse).map fun v => [.literal v]
  | _, [] => none
  | place, c :: rest => do
    let (next, lexemes) ← stepLexeme place c
    let more ← lex next rest
    return lexemes ++ more

/-- A list or object that is not closed yet.  The items of a list are kept in reverse; an object
holds the key whose value is being read. -/
inductive Container where
  | list (items : List Value)
  | object (members : Table String Value) (key : String)

/-- How far a value is built. -/
inductive Construction where
  | value (stack : List Container)
  | firstItem (stack : List Container)
  | firstKey (stack : List Container)
  | nextKey (members : Table String Value) (stack : List Container)
  | colon (members : Table String Value) (key : String) (stack : List Container)
  | next (stack : List Container)
  | done (v : Value)

namespace Construction

/-- A complete value takes its place in the innermost open container. -/
def complete (v : Value) : List Container → Construction
  | [] => .done v
  | .list items :: stack => .next (.list (v :: items) :: stack)
  | .object members key :: stack => .next (.object (members.put key v) key :: stack)

def begin? (stack : List Container) : Lexeme → Option Construction
  | .literal v => some (complete v stack)
  | .text s => some (complete (.text s) stack)
  | .mark c =>
    if c = '[' then some (.firstItem stack)
    else if c = '{' then some (.firstKey stack)
    else none

def step : Construction → Lexeme → Option Construction
  | .value stack, lexeme => begin? stack lexeme
  | .firstItem stack, .mark ']' => some (complete (.list []) stack)
  | .firstItem stack, lexeme => begin? (.list [] :: stack) lexeme
  | .firstKey stack, .mark '}' => some (complete (.object []) stack)
  | .firstKey stack, .text key => some (.colon [] key stack)
  | .firstKey _, _ => none
  | .nextKey members stack, .text key => some (.colon members key stack)
  | .nextKey _ _, _ => none
  | .colon members key stack, .mark ':' => some (.value (.object members key :: stack))
  | .colon _ _ _, _ => none
  | .next (.list items :: stack), .mark ',' => some (.value (.list items :: stack))
  | .next (.list items :: stack), .mark ']' => some (complete (.list items.reverse) stack)
  | .next (.object members _ :: stack), .mark ',' => some (.nextKey members stack)
  | .next (.object members _ :: stack), .mark '}' => some (complete (.object members) stack)
  | .next _, _ => none
  | .done _, _ => none

end Construction

/-- The value that a JSON text writes. -/
def read? (text : String) : Option Value := do
  let lexemes ← lex .gap text.toList
  match ← lexemes.foldlM Construction.step (.value []) with
  | .done v => some v
  | _ => none

end DesignTokens.Json

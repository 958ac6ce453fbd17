import DesignTokens.Value.Display

/-! # JSON text of values

`compact` writes a value on one line without spaces, `indented` over several lines.  Only quotes,
backslashes and control characters are escaped; every other character stays as it is.
-/

namespace DesignTokens

/-- Numbers in JSON are written as in messages, but the names of the infinities and of what is no
number are spelled out. -/
def jsonNumberLayout : Binary64.Layout :=
  { numberLayout with infinity := "Infinity", notANumber := "NaN" }

namespace Value

def escapeJson (c : Char) : List Char :=
  if c = Text.doubleQuote ∨ c = '\\' then ['\\', c]
  else if c = '\n' then ['\\', 'n']
  else if c = '\r' then ['\\', 'r']
  else if c = '\t' then ['\\', 't']
  else if c = '\x08' then ['\\', 'b']
  else if c = '\x0c' then ['\\', 'f']
  else if c.toNat < 0x20 then '\\' :: 'u' :: Text.hexDigits 4 c.toNat
  else [c]

def jsonText (s : String) : String :=
  String.ofList (Text.doubleQuote :: s.toList.flatMap escapeJson ++ [Text.doubleQuote])

mutual

/-- A value as JSON on one line, without spaces. -/
def compact : Value → String
  | .null => "null"
  | .bool true => "true"
  | .bool false => "false"
  | .int n => toString n
  | .real x => jsonNumberLayout.render x
  | .text s => jsonText s
  | .list items => "[" ++ compactItems items ++ "]"
  | .object members => "\x7b" ++ compactMembers members ++ "\x7d"

def compactItems : List Value → String
  | [] => ""
  | [v] => v.compact
  | v :: items => v.compact ++ "," ++ compactItems items

def compactMembers : List (String × Value) → String
  | [] => ""
  | [(key, v)] => jsonText key ++ ":" ++ v.compact
  | (key, v) :: members => jsonText key ++ ":" ++ v.compact ++ "," ++ compactMembers members

end

/-- A line end and the indentation of a level. -/
def newLine (level : Nat) : String := "\n" ++ String.ofList (List.replicate (2 * level) ' ')

mutual

/-- A value as JSON with one member or item a line, each level indented by two spaces. -/
def indentedAt (level : Nat) : Value → String
  | .list [] => "[]"
  | .list items => "[" ++ indentedItems (level + 1) items ++ newLine level ++ "]"
  | .object [] => "\x7b\x7d"
  | .object members =>
    "\x7b" ++ indentedMembers (level + 1) members ++ newLine level ++ "\x7d"
  | v => v.compact

def indentedItems (level : Nat) : List Value → String
  | [] => ""
  | [v] => newLine level ++ indentedAt level v
  | v :: items => newLine level ++ indentedAt level v ++ "," ++ indentedItems level items

/-- The members of an object, each on a line. -/
def indentedMembers (level : Nat) : List (String × Value) → String
  | [] => ""
  | [(key, v)] => newLine level ++ jsonText key ++ ": " ++ indentedAt level v
  | (key, v) :: members =>
    newLine level ++ jsonText key ++ ": " ++ indentedAt level v ++ ","
      ++ indentedMembers level members

end

/-- A value as JSON over several lines. -/
def indented (v : Value) : String := indentedAt 0 v

end Value

end DesignTokens

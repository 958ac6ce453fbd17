import DesignTokens.Value
import DesignTokens.Binary64.Shortest
import DesignTokens.Text.Quoted

/-! # Values in messages

`shown` is the form of a value inside a message: texts in quotes, lists and objects in brackets.
`plain` is the same except for a text, which stands bare.  `described` cuts a long form short.
-/

namespace DesignTokens

/-- Numbers show the shortest digits.  They are written out from `0.0001` up to sixteen digits,
otherwise with an exponent of at least two digits; a whole number keeps a zero. -/
def numberLayout : Binary64.Layout where
  leastPositional := -4
  leastExponential := 16
  mark := "e"
  exponentDigits := 2
  wholeTail := ".0"
  infinity := "inf"
  notANumber := "nan"

namespace Value

/-- The name of a kind of value in a message. -/
def Kind.name : Kind → String
  | .null => "NoneType"
  | .bool => "bool"
  | .int => "int"
  | .real => "float"
  | .text => "str"
  | .list => "list"
  | .object => "dict"

mutual

/-- A value as a message shows it. -/
def shown : Value → String
  | .null => "None"
  | .bool true => "True"
  | .bool false => "False"
  | .int n => toString n
  | .real x => numberLayout.render x
  | .text s => Text.quoted s
  | .list items => "[" ++ shownItems items ++ "]"
  | .object members => "\x7b" ++ shownMembers members ++ "\x7d"

def shownItems : List Value → String
  | [] => ""
  | [v] => v.shown
  | v :: items => v.shown ++ ", " ++ shownItems items

def shownMembers : List (String × Value) → String
  | [] => ""
  | [(key, v)] => Text.quoted key ++ ": " ++ v.shown
  | (key, v) :: members => Text.quoted key ++ ": " ++ v.shown ++ ", " ++ shownMembers members

end

/-- A value as it stands in running text. -/
def plain : Value → String
  | .text s => s
  | v => v.shown

def shownTexts (texts : List String) : String := (Value.list (texts.map .text)).shown

/-- The first characters of a text up to a place that counts from the end if it is negative. -/
def firstUpTo (cs : List Char) (place : Int) : List Char :=
  if place ≥ 0 then cs.take place.toNat else cs.take (cs.length - (-place).toNat)

/-- The number of characters that a message spends on a value. -/
def describedLimit : Int := 80

end Value

/-- Values that a message can show, in its own form and in that of running text. -/
class Display (α : Type) where
  shown : α → String
  plain : α → String

instance : Display Value := ⟨Value.shown, Value.plain⟩

/-- The shown form of a value, cut to a number of characters. -/
def Display.described {α : Type} [Display α] (limit : Int) (v : α) : String :=
  let cs := (Display.shown v).toList
  if (cs.length : Int) > limit then
    String.ofList (Value.firstUpTo cs (limit - 3) ++ "...".toList)
  else String.ofList cs

end DesignTokens

import DesignTokens.Value.Display
import DesignTokens.Value.Writable

/-! # Values with numbers for keys

A scale of steps such as `100: ...` is loaded with integers for keys.  An integer is not the text
that it is written as: `100` and `"100"` are two keys of one object.  Groups are nevertheless read
by the texts of their keys; `Keyed.textKeys` gives the members under these.
-/

namespace DesignTokens

/-- A value without parts. -/
inductive Scalar where
  | null
  | bool (b : Bool)
  | int (n : Int)
  | real (x : Binary64)
  | text (s : String)
  deriving Inhabited

def Scalar.value : Scalar → Value
  | .null => .null
  | .bool b => .bool b
  | .int n => .int n
  | .real x => .real x
  | .text s => .text s

/-- A text, or an integer that has a decimal numeral. -/
inductive Key where
  | text (s : String)
  | number (n : Int) (writable : isWritable n = true)
  deriving DecidableEq

namespace Key

def spelling : Key → String
  | text s => s
  | number n _ => toString n

def shown : Key → String
  | text s => Text.quoted s
  | number n _ => toString n

end Key

/-- A document or a part of one, with texts and integers for keys. -/
inductive Keyed where
  | scalar (s : Scalar)
  | list (items : List Keyed)
  | object (members : List (Key × Keyed))
  deriving Inhabited

namespace Keyed

mutual

/-- A value whose keys are texts. -/
def ofValue : Value → Keyed
  | .null => .scalar .null
  | .bool b => .scalar (.bool b)
  | .int n => .scalar (.int n)
  | .real x => .scalar (.real x)
  | .text s => .scalar (.text s)
  | .list items => .list (ofItems items)
  | .object members => .object (ofMembers members)

def ofItems : List Value → List Keyed
  | [] => []
  | v :: items => ofValue v :: ofItems items

def ofMembers : List (String × Value) → List (Key × Keyed)
  | [] => []
  | (key, v) :: members => (.text key, ofValue v) :: ofMembers members

end

def isVacant : Keyed → Bool
  | .scalar s => s.value.isVacant
  | .list items => items.isEmpty
  | .object members => members.isEmpty

mutual

/-- Equality of content: numbers are compared across kinds, and the order of members does not
count.  A number and its text are different keys. -/
def same : Keyed → Keyed → Bool
  | .scalar s, .scalar t => s.value.same t.value
  | .list items, .list others => sameItems items others
  | .object members, .object others =>
    members.length == others.length && sameMembers members others
  | _, _ => false

def sameItems : List Keyed → List Keyed → Bool
  | [], [] => true
  | v :: items, w :: others => v.same w && sameItems items others
  | _, _ => false

def sameMembers : List (Key × Keyed) → Table Key Keyed → Bool
  | [], _ => true
  | (key, v) :: members, others =>
    (match others.get? key with
      | some w => v.same w
      | none => false) && sameMembers members others

end

mutual

def shown : Keyed → String
  | .scalar s => s.value.shown
  | .list items => "[" ++ shownItems items ++ "]"
  | .object members => "\x7b" ++ shownMembers members ++ "\x7d"

def shownItems : List Keyed → String
  | [] => ""
  | [v] => v.shown
  | v :: items => v.shown ++ ", " ++ shownItems items

def shownMembers : List (Key × Keyed) → String
  | [] => ""
  | [(key, v)] => key.shown ++ ": " ++ v.shown
  | (key, v) :: members => key.shown ++ ": " ++ v.shown ++ ", " ++ shownMembers members

end

def plain : Keyed → String
  | .scalar (.text s) => s
  | v => v.shown

instance : Display Keyed := ⟨shown, plain⟩

/-! ### The texts of keys -/

/-- Members under the texts of their keys: where two keys have one text, the first place and the
last value count. -/
def textKeys (members : List (Key × Keyed)) : Table String Keyed :=
  Table.ofPairs (members.map fun m => (m.1.spelling, m.2))

/-- An object with texts for keys. -/
def ofTable (t : Table String Keyed) : Keyed := .object (t.map fun m => (.text m.1, m.2))

end Keyed

end DesignTokens

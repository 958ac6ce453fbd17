import DesignTokens.Table
import DesignTokens.Binary64

/-! # Values of a token document

A document is a tree of values in which the members of an object are ordered and integers and
binary numbers are different things.
-/

namespace DesignTokens

/-- A document or a part of one. -/
inductive Value where
  | null
  | bool (b : Bool)
  | int (n : Int)
  | real (x : Binary64)
  | text (s : String)
  | list (items : List Value)
  | object (members : List (String × Value))
  deriving Inhabited

namespace Value

/-- The kinds of values. -/
inductive Kind where
  | null | bool | int | real | text | list | object
  deriving DecidableEq, Repr, Inhabited

/-- The kind of a value. -/
def kind : Value → Kind
  | .null => .null
  | .bool _ => .bool
  | .int _ => .int
  | .real _ => .real
  | .text _ => .text
  | .list _ => .list
  | .object _ => .object

def text? : Value → Option String
  | .text s => some s
  | _ => none

def items? : Value → Option (List Value)
  | .list items => some items
  | _ => none

def members? : Value → Option (Table String Value)
  | .object members => some members
  | _ => none

def isObject : Value → Bool
  | .object _ => true
  | _ => false

def member? (v : Value) (key : String) : Option Value := v.members?.bind (·.get? key)

/-- The texts of a list that holds nothing but texts. -/
def texts? : Value → Option (List String)
  | .list items => items.mapM text?
  | _ => none

/-- Whether a value says nothing: null, false, zero and whatever has no content. -/
def isVacant : Value → Bool
  | .null => true
  | .bool b => !b
  | .int n => n == 0
  | .real x => x.isZero
  | .text s => s.isEmpty
  | .list items => items.isEmpty
  | .object members => members.isEmpty

/-- The number that a value is: a truth value counts as 0 or 1. -/
def number? : Value → Option (Int ⊕ Binary64)
  | .bool b => some (.inl (if b then 1 else 0))
  | .int n => some (.inl n)
  | .real x => some (.inr x)
  | _ => none

/-- Equality of numbers across their kinds. -/
def sameNumber : Int ⊕ Binary64 → Int ⊕ Binary64 → Bool
  | .inl m, .inl n => m == n
  | .inr x, .inr y => x.sameNumber y
  | .inl m, .inr y => y.toInt? == some m
  | .inr x, .inl n => x.toInt? == some n

mutual

/-- Equality of content: numbers are compared across kinds, and the order of members does not
count. -/
def same : Value → Value → Bool
  | .null, .null => true
  | .text s, .text t => s == t
  | .list items, .list others => sameItems items others
  | .object members, .object others =>
    members.length == others.length && sameMembers members others
  | v, w =>
    match v.number?, w.number? with
    | some m, some n => sameNumber m n
    | _, _ => false

def sameItems : List Value → List Value → Bool
  | [], [] => true
  | v :: items, w :: others => v.same w && sameItems items others
  | _, _ => false

/-- Whether every member has a member of the same content among the others. -/
def sameMembers : List (String × Value) → Table String Value → Bool
  | [], _ => true
  | (key, v) :: members, others =>
    (match others.get? key with
      | some w => v.same w
      | none => false) && sameMembers members others

end

end Value

end DesignTokens

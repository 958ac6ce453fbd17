import DesignTokens.Reference.Alias
import DesignTokens.Value

/-! # References in a value

`occurrences` lists every reference of a value where it stands: aliases and malformed braces in
texts, pointers in the `$ref` member of an object.  `Scan.of` gathers them: each alias and each
pointer once, in the order of first occurrence, and every malformed text as often as it stands.
-/

namespace DesignTokens

/-- A reference where it stands. -/
inductive Occurrence where
  | aliasOf (path : String)
  | pointer (ref : String)
  | malformed (text : String)
  deriving DecidableEq, Repr

namespace Occurrence

def aliasPath? : Occurrence → Option String
  | .aliasOf path => some path
  | _ => none

def pointer? : Occurrence → Option String
  | .pointer ref => some ref
  | _ => none

def malformed? : Occurrence → Option String
  | .malformed text => some text
  | _ => none

/-- The reference that a piece of a text makes, if it makes one. -/
def ofPiece : Alias.Piece → Option Occurrence
  | .plain _ => none
  | .braced inner =>
    let run := Alias.withBraces inner
    let path := Alias.pathOf run
    if Alias.isWellFormed path then some (.aliasOf (String.ofList path))
    else some (.malformed (String.ofList run))

/-- Whether a piece is a brace that belongs to no run. -/
def isStrayBrace : Alias.Piece → Bool
  | .plain c => c = '{' || c = '}'
  | .braced _ => false

/-- The references of a text.  A brace outside every run makes the whole text malformed. -/
def ofText (s : String) : List Occurrence :=
  let pieces := Alias.pieces s.toList
  pieces.filterMap ofPiece ++ if pieces.any isStrayBrace then [.malformed s] else []

end Occurrence

/-- The member of an object that holds a pointer. -/
def pointerKey : String := "$ref"

namespace Value

def pointerOf? (members : Table String Value) : Option String :=
  (members.get? pointerKey).bind text?

mutual

/-- The references of a value, in the order in which they stand. -/
def occurrences : Value → List Occurrence
  | .text s => Occurrence.ofText s
  | .list items => occurrencesOfItems items
  | .object members =>
    ((pointerOf? members).map Occurrence.pointer).toList ++ occurrencesOfMembers members
  | _ => []

def occurrencesOfItems : List Value → List Occurrence
  | [] => []
  | v :: items => v.occurrences ++ occurrencesOfItems items

def occurrencesOfMembers : List (String × Value) → List Occurrence
  | [] => []
  | (key, v) :: members =>
    (if key = pointerKey then [] else v.occurrences) ++ occurrencesOfMembers members

end

end Value

/-- The references of a value, gathered by kind. -/
structure Scan where
  aliases : List String
  pointers : List String
  malformed : List String
  deriving DecidableEq, Repr, Inhabited

def Scan.of (v : Value) : Scan :=
  let found := v.occurrences
  { aliases := (found.filterMap Occurrence.aliasPath?).eraseDups
    pointers := (found.filterMap Occurrence.pointer?).eraseDups
    malformed := found.filterMap Occurrence.malformed? }

end DesignTokens

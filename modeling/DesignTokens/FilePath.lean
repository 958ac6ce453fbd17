import DesignTokens.Text.Parts

/-! # File paths

A path is read as its leading slashes and its parts; empty parts and single dots are dropped, and
exactly two leading slashes are kept apart from one.  `normalize` also takes away `..` together
with the part before it, which is how files of a project are told apart: the text `key` of a
normalized path is the same for every spelling.
-/

namespace DesignTokens

/-- A path: its leading slashes and its parts. -/
structure FilePath where
  slashes : Nat
  parts : List String
  deriving DecidableEq, Repr, Inhabited

namespace FilePath

/-- The number of leading slashes that count: more than two are one. -/
def leadingSlashes : List Char → Nat
  | '/' :: '/' :: '/' :: _ => 1
  | '/' :: '/' :: _ => 2
  | '/' :: _ => 1
  | _ => 0

/-- The parts of a path, without the empty ones and the single dots. -/
def partsOf (cs : List Char) : List String :=
  ((Text.splitOn '/' cs).filter fun part => !(part.isEmpty || part == ['.'])).map String.ofList

def ofChars (cs : List Char) : FilePath := ⟨leadingSlashes cs, partsOf cs⟩

def ofText (s : String) : FilePath := ofChars s.toList

def isAbsolute (p : FilePath) : Bool := p.slashes > 0

/-- The text of a path, empty for the path without parts. -/
def key (p : FilePath) : String :=
  String.ofList (List.replicate p.slashes '/') ++ Text.join '/' p.parts

/-- The text of a path, a dot for the path without parts. -/
def text (p : FilePath) : String := if p.slashes = 0 ∧ p.parts = [] then "." else p.key

/-- One more part of a path, on the reversed parts before it.  At the root `..` leads nowhere. -/
def climb (absolute : Bool) (before : List String) (part : String) : List String :=
  if part = ".." then
    match before with
    | [] => if absolute then [] else [".."]
    | last :: rest => if last = ".." then ".." :: before else rest
  else part :: before

/-- A path without `..`, except for those at the front of a relative path. -/
def normalize (p : FilePath) : FilePath :=
  { p with parts := (p.parts.foldl (climb p.isAbsolute) []).reverse }

/-- A path below another one, unless it is absolute. -/
def below (base p : FilePath) : FilePath :=
  if p.isAbsolute then p else { base with parts := base.parts ++ p.parts }

def parent (p : FilePath) : FilePath := { p with parts := p.parts.dropLast }

def name (p : FilePath) : String := p.parts.getLast?.getD ""

/-- The end of the last part from its last dot on.  A dot at either end of the part does not
count. -/
def suffix (p : FilePath) : String :=
  let reversed := p.name.toList.reverse
  let tail := reversed.takeWhile (· != '.')
  let front := reversed.dropWhile (· != '.')
  match front with
  | '.' :: _ :: _ => if tail.isEmpty then "" else String.ofList ('.' :: tail.reverse)
  | _ => ""

def withSlashes (s : String) : List Char := Text.replaceChar '\\' '/' s.toList

/-- Whether a text names a scheme, as in `https://`. -/
def hasScheme : List Char → Bool
  | ':' :: '/' :: '/' :: _ => true
  | _ :: rest => hasScheme rest
  | [] => false

def directoryOf (cs : List Char) : FilePath :=
  ofChars (cs.reverse.dropWhile (· != '/')).reverse

/-- The key of a token file.  A relative path is taken from the directory of the referring file. -/
def fileKey (path : String) (relativeTo : Option String) : String :=
  let cs := withSlashes path
  let p := ofChars cs
  let base := relativeTo.getD ""
  let full :=
    if base = "" ∨ p.isAbsolute ∨ hasScheme cs then p
    else (directoryOf (withSlashes base)).below p
  full.normalize.key

end FilePath

end DesignTokens

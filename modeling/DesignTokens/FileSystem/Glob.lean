import DesignTokens.FileSystem

/-! # Patterns of file names

A pattern is a path in which parts may hold wildcards: a star for any characters, a question mark
for one, and brackets for one of a set.  A part that is two stars stands for any number of
directories.  `FileSystem.glob` lists what matches below a directory.
-/

namespace DesignTokens

namespace Glob

/-- One of the characters of a set in brackets, both ends included. -/
abbrev CharRange := Char × Char

/-- A part of a pattern for a name. -/
inductive Wildcard where
  | literal (c : Char)
  | one
  | many
  | set (negated : Bool) (ranges : List CharRange)
  deriving DecidableEq, Repr

/-- The ranges of a set: a hyphen between two characters makes a range. -/
def rangesOf : List Char → List CharRange
  | a :: '-' :: b :: rest => (a, b) :: rangesOf rest
  | a :: rest => (a, a) :: rangesOf rest
  | [] => []

/-- The content of brackets and what follows them.  A closing bracket that comes first belongs to
the content. -/
def bracketed? : List Char → Option (List Char × List Char)
  | '!' :: ']' :: rest => (upToBracket rest).map fun p => ('!' :: ']' :: p.1, p.2)
  | '!' :: rest => (upToBracket rest).map fun p => ('!' :: p.1, p.2)
  | ']' :: rest => (upToBracket rest).map fun p => (']' :: p.1, p.2)
  | rest => upToBracket rest
where
  upToBracket (cs : List Char) : Option (List Char × List Char) :=
    match cs.dropWhile (· != ']') with
    | _ :: rest => some (cs.takeWhile (· != ']'), rest)
    | [] => none

/-- The set that the content of brackets describes. -/
def setOf : List Char → Wildcard
  | '!' :: content => .set true (rangesOf content)
  | content => .set false (rangesOf content)

/-- The wildcards of a part.  An opening bracket without a closing one stands for itself.  `budget`
bounds the number of wildcards. -/
def wildcardsWithin : (budget : Nat) → List Char → List Wildcard
  | 0, _ => []
  | _, [] => []
  | budget + 1, c :: rest =>
    if c = '*' then .many :: wildcardsWithin budget rest
    else if c = '?' then .one :: wildcardsWithin budget rest
    else if c = '[' then
      match bracketed? rest with
      | some (content, rest) => setOf content :: wildcardsWithin budget rest
      | none => .literal c :: wildcardsWithin budget rest
    else .literal c :: wildcardsWithin budget rest

/-- The wildcards of a part of a pattern; each takes at least one character of it. -/
def wildcards (cs : List Char) : List Wildcard := wildcardsWithin cs.length cs

/-- Whether a wildcard stands for a single character. -/
def Wildcard.accepts (w : Wildcard) (c : Char) : Bool :=
  match w with
  | .literal d => c = d
  | .one => true
  | .many => true
  | .set negated ranges => (ranges.any fun r => r.1 ≤ c && c ≤ r.2) != negated

/-- Whether some rest of a text, the text itself included, passes a test. -/
def someRest (test : List Char → Bool) : List Char → Bool
  | [] => test []
  | c :: cs => test (c :: cs) || someRest test cs

/-- Whether wildcards stand for a whole name. -/
def accepts : List Wildcard → List Char → Bool
  | [], cs => cs.isEmpty
  | .many :: rest, cs => someRest (accepts rest) cs
  | w :: rest, cs =>
    match cs with
    | [] => false
    | c :: cs => w.accepts c && accepts rest cs

/-- A part of a pattern. -/
inductive Part where
  | name (s : String)
  | wild (ws : List Wildcard)
  | anyDirectories
  | directoryEnd
  deriving DecidableEq, Repr

def hasDoubleStar : List Char → Bool
  | '*' :: '*' :: _ => true
  | _ :: rest => hasDoubleStar rest
  | [] => false

def isWild (c : Char) : Bool := c = '*' || c = '?' || c = '['

/-- A part of a pattern, unless it has two stars among other characters. -/
def part? (s : String) : Option Part :=
  let cs := s.toList
  if cs = ['*', '*'] then some .anyDirectories
  else if hasDoubleStar cs then none
  else if cs.any isWild then some (.wild (wildcards cs))
  else some (.name s)

def parts? (pattern : String) : Option (List Part) := do
  let parts ← (FilePath.ofText pattern).parts.mapM part?
  return if pattern.toList.getLast? = some '/' then parts ++ [.directoryEnd] else parts

end Glob

namespace FileSystem

/-- The directories below a directory and the directory itself, as parts below a base.  `depth`
bounds how far down they lie. -/
def directoriesUnder (fs : FileSystem) (base : FilePath) : (depth : Nat) → List String →
    List (List String)
  | 0, here => [here]
  | depth + 1, here =>
    let inside := (fs.namesAt { base with parts := base.parts ++ here }).filter fun name =>
      fs.isDirectory { base with parts := base.parts ++ here ++ [name] }
    here :: inside.flatMap fun name => directoriesUnder fs base depth (here ++ [name])

def depth (fs : FileSystem) : Nat := fs.entries.foldl (fun n e => max n e.1.length) 0

/-- What the parts of a pattern match from a place below a base on. -/
def select (fs : FileSystem) (base : FilePath) : List Glob.Part → List String → List (List String)
  | [], here => [here]
  | .directoryEnd :: _, here => [here]
  | .name s :: rest, here =>
    let place := here ++ [s]
    let p : FilePath := { base with parts := base.parts ++ place }
    if if rest.isEmpty then fs.existsAt p else fs.isDirectory p then select fs base rest place
    else []
  | .wild ws :: rest, here =>
    (fs.namesAt { base with parts := base.parts ++ here }).flatMap fun name =>
      let place := here ++ [name]
      if Glob.accepts ws name.toList &&
          (rest.isEmpty || fs.isDirectory { base with parts := base.parts ++ place }) then
        select fs base rest place
      else []
  | .anyDirectories :: rest, here =>
    ((directoriesUnder fs base fs.depth here).flatMap fun place =>
      select fs base rest place).eraseDups

/-- The files below a directory that match a pattern, in the order of their names. -/
def glob (fs : FileSystem) (base : FilePath) (parts : List Glob.Part) : List String :=
  if fs.isDirectory base then
    let files := (fs.select base parts []).filter fun place =>
      fs.isFile { base with parts := base.parts ++ place }
    (files.map (Text.join '/')).mergeSort fun a b => !decide (b < a)
  else []

end FileSystem

end DesignTokens

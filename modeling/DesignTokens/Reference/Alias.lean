import DesignTokens.Text.Blank
import DesignTokens.Text.Parts

/-! # Aliases

An alias is a run of characters between braces inside a text, such as `{color.primary}`.  `pieces`
cuts a text into its braced runs and the plain characters between them; `pathOf` turns a run into
the path that it names, and `isPath` tells the paths from malformed ones.
-/

namespace DesignTokens.Alias

/-- A part of a text: a plain character, or what stands between an opening brace and the next
brace if that one closes. -/
inductive Piece where
  | plain (c : Char)
  | braced (inner : List Char)
  deriving DecidableEq, Repr

def unclosed (read : List Char) : List Piece := .plain '{' :: read.reverse.map .plain

/-- The pieces of a text.  `read` holds, in reverse, what follows an opening brace. -/
def piecesFrom : (read : Option (List Char)) → List Char → List Piece
  | none, [] => []
  | some read, [] => unclosed read
  | none, c :: rest =>
    if c = '{' then piecesFrom (some []) rest else .plain c :: piecesFrom none rest
  | some read, c :: rest =>
    if c = '}' then .braced read.reverse :: piecesFrom none rest
    else if c = '{' then unclosed read ++ piecesFrom (some []) rest
    else piecesFrom (some (c :: read)) rest

/-- The pieces of a text. -/
def pieces (cs : List Char) : List Piece := piecesFrom none cs

def withBraces (inner : List Char) : List Char := '{' :: inner ++ ['}']

def Piece.chars : Piece → List Char
  | .plain c => [c]
  | .braced inner => withBraces inner

/-- A text without the braces that enclose it. -/
def unbraced : List Char → List Char
  | '{' :: inner => (Text.beforeTail? ['}'] inner).getD ('{' :: inner)
  | cs => cs

/-- The dot path that a reference names.  The forms `{a.b}`, `#/a/b` and `a/b` all name `a.b`, and
the member that holds a token's value may be named as well. -/
def pathOf (raw : List Char) : List Char :=
  let path := unbraced (Text.strip raw)
  let path := (Text.afterFront? "#/".toList path).getD path
  let path := Text.replaceChar '/' '.' path
  (Text.beforeTail? ".$value".toList path).getD path

/-- Whether a character may stand in a segment of a path. -/
def isSegmentChar (c : Char) : Bool := !(Text.isBlank c || c = '.' || c = '{' || c = '}')

/-- A segment is not empty and does not begin with a dollar sign. -/
def isSegment : List Char → Bool
  | [] => false
  | c :: rest => isSegmentChar c && c != '$' && rest.all isSegmentChar

/-- A path is a sequence of segments with dots between them. -/
def isPath (cs : List Char) : Bool := (Text.splitOn '.' cs).all isSegment

/-- A text without a line end at its end. -/
def withoutLineEnd (cs : List Char) : List Char := (Text.beforeTail? ['\n'] cs).getD cs

/-- Whether the path of an alias is well formed.  A single line end may follow it. -/
def isWellFormed (cs : List Char) : Bool := isPath (withoutLineEnd cs)

/-- Whether a text is one braced run and nothing else, apart from a line end at its end. -/
def isWhole (cs : List Char) : Bool :=
  match pieces cs with
  | [.braced _] => true
  | [.braced _, .plain '\n'] => true
  | _ => false

/-- Whether a text is exactly one well-formed alias. -/
def isAlias (s : String) : Bool := isWhole s.toList && isWellFormed (pathOf s.toList)

def path (raw : String) : String := String.ofList (pathOf raw.toList)

def ofPath (path : String) : String := "\x7b" ++ path ++ "\x7d"

end DesignTokens.Alias

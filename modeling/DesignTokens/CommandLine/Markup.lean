/-! # Styled text

Styles are written as tags in brackets.  `Markup.plain?` gives the text without them, and
`Markup.escape` writes a text so that its brackets are no tags.
-/

namespace DesignTokens.Markup

def startsTag (c : Char) : Bool :=
  ('a' ≤ c && c ≤ 'z') || c = '#' || c = '/' || c = '@'

/-- The characters before the next closing bracket, if no opening one comes first. -/
def upToClose : List Char → Option (List Char)
  | [] => none
  | c :: rest =>
    if c = ']' then some []
    else if c = '[' then none
    else (upToClose rest).map (c :: ·)

def tagAfter? : List Char → Option (List Char)
  | c :: rest => if startsTag c then (upToClose rest).map (c :: ·) else none
  | [] => none

/-- A part of a styled text. -/
inductive Piece where
  | plain (cs : List Char)
  | tag (name : List Char)
  deriving DecidableEq, Repr

def slashes (n : Nat) : List Char := List.replicate n '\\'

/-- The pieces of a text after some backslashes, of which some characters are passed over.  Two
backslashes before a tag are one, and a single one takes its meaning away. -/
def pieces : (before passed : Nat) → List Char → List Piece
  | before, _, [] => [.plain (slashes before)]
  | _, passed + 1, _ :: rest => pieces 0 passed rest
  | before, 0, c :: rest =>
    if c = '\\' then pieces (before + 1) 0 rest
    else if c = '[' then
      match tagAfter? rest with
      | some name =>
        let piece := if before % 2 = 1 then .plain ('[' :: name ++ [']']) else .tag name
        .plain (slashes (before / 2)) :: piece :: pieces 0 (name.length + 1) rest
      | none => .plain (slashes (before - 1) ++ ['[']) :: pieces 0 0 rest
    else .plain (slashes before ++ [c]) :: pieces 0 0 rest

/-- The name of a style: its tag up to an equals sign, in small letters. -/
def styleName (tag : List Char) : List Char :=
  let trim := fun (cs : List Char) =>
    ((cs.dropWhile Char.isWhitespace).reverse.dropWhile Char.isWhitespace).reverse
  (trim (tag.takeWhile (· != '='))).map Char.toLower

/-- The open styles after a closing tag: the innermost one of its name is closed, and a closing tag
without a name closes the innermost of all. -/
def closed? (name : List Char) (styles : List (List Char)) : Option (List (List Char)) :=
  match name, styles with
  | [], _ :: outer => some outer
  | [], [] => none
  | _, _ => if styles.contains name then some (styles.erase name) else none

/-- Whether a character controls a terminal and is never printed. -/
def isControl (c : Char) : Bool := [7, 8, 11, 12, 13].contains c.toNat

/-- The text of pieces, unless a tag closes a style that is not open. -/
def textOf? : (styles : List (List Char)) → List Piece → Option (List Char)
  | _, [] => some []
  | styles, .plain cs :: rest =>
    (textOf? styles rest).map (cs.filter (fun c => !isControl c) ++ ·)
  | styles, .tag tag :: rest =>
    match tag with
    | '/' :: name => (closed? (styleName name) styles).bind fun styles => textOf? styles rest
    | _ => textOf? (styleName tag :: styles) rest

/-- The text of a styled text. -/
def plain? (s : String) : Option String := (textOf? [] (pieces 0 0 s.toList)).map String.ofList

/-- Characters in which the brackets of tags are escaped. -/
def escapeFrom : (before : Nat) → List Char → List Char
  | before, [] => slashes before
  | before, c :: rest =>
    if c = '\\' then escapeFrom (before + 1) rest
    else if c = '[' && (tagAfter? rest).isSome then
      slashes (2 * before + 1) ++ c :: escapeFrom 0 rest
    else slashes before ++ c :: escapeFrom 0 rest

/-- A text in which the brackets of tags are escaped.  A single backslash at the end is doubled. -/
def escape (s : String) : String :=
  let cs := escapeFrom 0 s.toList
  String.ofList
    (match cs.reverse with
      | '\\' :: '\\' :: _ => cs
      | '\\' :: _ => cs ++ ['\\']
      | _ => cs)

end DesignTokens.Markup

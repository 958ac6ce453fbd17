import DesignTokens.Yaml.Scalar

/-! # Reading YAML text

A cursor is what is left of a text and the column at which it stands.  This module reads the parts
of a document that are not nested: gaps between tokens, plain and quoted scalars and blocks of
literal text.
-/

namespace DesignTokens.Yaml

/-- What is left of a text, and its column. -/
structure Cursor where
  column : Nat
  rest : List Char
  deriving Inhabited

namespace Cursor

def after (column : Nat) (c : Char) (rest : List Char) : Cursor :=
  ⟨if c = '\n' then 0 else column + 1, rest⟩

def advance (cur : Cursor) : Cursor :=
  match cur.rest with
  | [] => cur
  | c :: rest => after cur.column c rest

/-- Whether a character separates tokens, or the text ends. -/
def isBreak : List Char → Bool
  | [] => true
  | c :: _ => c = ' ' || c = '\t' || c = '\n'

/-- Whether a document begins or ends at the cursor. -/
def isMarker (cur : Cursor) : Bool :=
  cur.column = 0 &&
    match cur.rest with
    | '-' :: '-' :: '-' :: rest => isBreak rest
    | '.' :: '.' :: '.' :: rest => isBreak rest
    | _ => false

/-- Goes on over spaces, line ends and comments, and says whether a line end was among them. -/
def gapFrom : (column : Nat) → (crossed inComment : Bool) → List Char → Bool × Cursor
  | column, crossed, _, [] => (crossed, ⟨column, []⟩)
  | column, crossed, true, c :: rest =>
    if c = '\n' then gapFrom 0 true false rest else gapFrom (column + 1) crossed true rest
  | column, crossed, false, c :: rest =>
    if c = ' ' then gapFrom (column + 1) crossed false rest
    else if c = '\n' then gapFrom 0 true false rest
    else if c = '#' then gapFrom (column + 1) crossed true rest
    else (crossed, ⟨column, c :: rest⟩)

/-- Goes on over spaces, line ends and comments, and says whether a line end was among them. -/
def gap (cur : Cursor) : Bool × Cursor := gapFrom cur.column false false cur.rest

def skipSpaces (cur : Cursor) : Cursor :=
  let spaces := cur.rest.takeWhile (· == ' ')
  ⟨cur.column + spaces.length, cur.rest.drop spaces.length⟩

end Cursor

/-! ## Plain scalars -/

/-- Whether a plain scalar ends before some characters. -/
def endsPlain (inFlow : Bool) : List Char → Bool
  | [] => true
  | c :: rest =>
    c = ' ' || c = '\t' || c = '\n' ||
    (c = ':' && (Cursor.isBreak rest ||
      (inFlow && (rest.head?.map fun d => ",[]\x7b\x7d".toList.contains d).getD false))) ||
    (inFlow && ",?[]\x7b\x7d".toList.contains c)

/-- The words of a plain scalar on one line, and what follows them.  A comment ends the line. -/
def plainWord (inFlow : Bool) (column : Nat) : List Char → List Char × Cursor
  | [] => ([], ⟨column, []⟩)
  | c :: rest =>
    if endsPlain inFlow (c :: rest) then ([], ⟨column, c :: rest⟩)
    else
      let (word, cur) := plainWord inFlow (column + 1) rest
      (c :: word, cur)

/-- The line ends at which a scalar is folded: one becomes a space, and of several the first is
dropped. -/
def folded (breaks : Nat) : List Char :=
  if breaks = 0 then [] else if breaks = 1 then [' '] else List.replicate (breaks - 1) '\n'

/-- The number of line ends in a gap without comments, and the cursor after it. -/
def plainGap : (column breaks : Nat) → List Char → Nat × Cursor
  | column, breaks, [] => (breaks, ⟨column, []⟩)
  | column, breaks, c :: rest =>
    if c = ' ' then plainGap (column + 1) breaks rest
    else if c = '\n' then plainGap 0 (breaks + 1) rest
    else (breaks, ⟨column, c :: rest⟩)

/-- A plain scalar, which may go on over lines whose text stands at least at a column, and whether
it does go over several lines.  `budget` bounds the number of words. -/
def plain (inFlow : Bool) (column : Nat) : (budget : Nat) → Cursor → List Char × Bool × Cursor
  | 0, cur => ([], false, cur)
  | budget + 1, cur =>
    let (word, cur) := plainWord inFlow cur.column cur.rest
    let (breaks, next) := plainGap cur.column 0 cur.rest
    let spaces := (cur.rest.takeWhile (· == ' ')).length
    let stops :=
      next.rest.isEmpty || next.rest.head? = some '#' || endsPlain inFlow next.rest ||
      (!inFlow && breaks > 0 && next.column < column) || next.isMarker ||
      (breaks = 0 && spaces = 0)
    if word.isEmpty || stops then (word, false, cur)
    else
      let (more, multiline, last) := plain inFlow column budget next
      let between := if breaks = 0 then List.replicate spaces ' ' else folded breaks
      (word ++ between ++ more, breaks > 0 || multiline, last)

/-- Whether a plain scalar may begin with some characters. -/
def startsPlain (inFlow : Bool) : List Char → Bool
  | [] => false
  | c :: rest =>
    if c = '-' then !Cursor.isBreak rest
    else if c = '?' || c = ':' then !inFlow && !Cursor.isBreak rest
    else
      !(c = ' ' || c = '\t' || c = '\n' || "[]\x7b\x7d,#&*!|>%@".toList.contains c ||
        c.toNat = 0x22 || c.toNat = 0x27 || c.toNat = 0x60)

/-! ## Quoted scalars -/

/-- A quoted text, the cursor after it, and whether it goes over several lines. -/
structure QuotedText where
  text : List Char
  cursor : Cursor
  multiline : Bool
  deriving Inhabited

namespace QuotedText

def prepend (cs : List Char) (multiline : Bool) (q : QuotedText) : QuotedText :=
  { q with text := cs ++ q.text, multiline := q.multiline || multiline }

end QuotedText

/-- The number of line ends in the blanks of a quoted text, and the cursor after them. -/
def quotedGap : (column breaks : Nat) → List Char → Nat × Cursor
  | column, breaks, [] => (breaks, ⟨column, []⟩)
  | column, breaks, c :: rest =>
    if c = ' ' || c = '\t' then quotedGap (column + 1) breaks rest
    else if c = '\n' then quotedGap 0 (breaks + 1) rest
    else (breaks, ⟨column, c :: rest⟩)

/-- The blanks of a quoted text as they are kept. -/
def keptBlanks (breaks : Nat) (cs : List Char) : List Char :=
  if breaks = 0 then cs.takeWhile fun c => c = ' ' || c = '\t' else folded breaks

/-- A text in single quotes, after the opening quote. -/
def singleQuoted : (budget : Nat) → Cursor → Option QuotedText
  | 0, _ => none
  | budget + 1, cur =>
    match cur.rest with
    | [] => none
    | c :: rest =>
      if c.toNat = 0x27 then
        match rest with
        | d :: rest =>
          if d.toNat = 0x27 then
            (singleQuoted budget ⟨cur.column + 2, rest⟩).map (·.prepend [d] false)
          else some ⟨[], ⟨cur.column + 1, d :: rest⟩, false⟩
        | [] => some ⟨[], ⟨cur.column + 1, []⟩, false⟩
      else if c = ' ' || c = '\t' || c = '\n' then
        let (breaks, next) := quotedGap cur.column 0 cur.rest
        if breaks > 0 && next.isMarker then none
        else
          (singleQuoted budget next).map (·.prepend (keptBlanks breaks cur.rest) (breaks > 0))
      else (singleQuoted budget ⟨cur.column + 1, rest⟩).map (·.prepend [c] false)

def escapes : List (Char × Nat) :=
  [('0', 0), ('a', 7), ('b', 8), ('t', 9), ('\t', 9), ('n', 10), ('v', 11), ('f', 12), ('r', 13),
   ('e', 27), (' ', 32), ('/', 47), ('\\', 92), ('N', 0x85), ('_', 0xa0), ('L', 0x2028),
   ('P', 0x2029), (Char.ofNat 0x22, 0x22)]

def escapeDigits? (c : Char) : Option Nat :=
  if c = 'x' then some 2 else if c = 'u' then some 4 else if c = 'U' then some 8 else none

/-- What an escape stands for, after the backslash, and what follows it. -/
def escape? : List Char → Option (List Char × Nat × List Char)
  | [] => none
  | c :: rest =>
    match escapes.lookup c with
    | some n => some ([Char.ofNat n], 1, rest)
    | none =>
      match escapeDigits? c with
      | some count =>
        let digits := rest.take count
        if digits.length = count && digits.all isHexDigit then
          some ([Char.ofNat (digitsValue 16 digits)], count + 1, rest.drop count)
        else none
      | none => none

/-- A text in double quotes, after the opening quote. -/
def doubleQuoted : (budget : Nat) → Cursor → Option QuotedText
  | 0, _ => none
  | budget + 1, cur =>
    match cur.rest with
    | [] => none
    | c :: rest =>
      if c.toNat = 0x22 then some ⟨[], ⟨cur.column + 1, rest⟩, false⟩
      else if c = '\\' then
        if rest.head? = some '\n' then
          let (breaks, next) := quotedGap 0 0 (rest.drop 1)
          (doubleQuoted budget next).map (·.prepend (List.replicate breaks '\n') true)
        else do
          let (cs, length, rest) ← escape? rest
          (doubleQuoted budget ⟨cur.column + 1 + length, rest⟩).map (·.prepend cs false)
      else if c = ' ' || c = '\t' || c = '\n' then
        let (breaks, next) := quotedGap cur.column 0 cur.rest
        if breaks > 0 && next.isMarker then none
        else
          (doubleQuoted budget next).map (·.prepend (keptBlanks breaks cur.rest) (breaks > 0))
      else (doubleQuoted budget ⟨cur.column + 1, rest⟩).map (·.prepend [c] false)

/-- A quoted text, if one begins at the cursor. -/
def quotedText? (cur : Cursor) : Option (Option QuotedText) :=
  match cur.rest with
  | c :: rest =>
    let inside : Cursor := ⟨cur.column + 1, rest⟩
    if c.toNat = 0x27 then some (singleQuoted cur.rest.length inside)
    else if c.toNat = 0x22 then some (doubleQuoted cur.rest.length inside)
    else none
  | [] => none

/-! ## Blocks of text -/

/-- How a block of text ends: with one line end, with none, or with all that are there. -/
inductive Chomping where
  | clip | strip | keep
  deriving DecidableEq, Repr

/-- The header of a block of text: its ending and its indentation if given. -/
def blockHeader? (header : List Char) : Option (Chomping × Option Nat) :=
  let flags := header.takeWhile fun c => c = '+' || c = '-' || isAsciiDigit c
  let rest := (header.dropWhile fun c => c = '+' || c = '-' || isAsciiDigit c).dropWhile (· == ' ')
  let chomping := fun (c : Char) => if c = '+' then Chomping.keep else Chomping.strip
  let digit := fun (c : Char) =>
    if '1' ≤ c ∧ c ≤ '9' then some (c.toNat - '0'.toNat) else none
  if !(rest.isEmpty || rest.head? = some '#') then none
  else
    match flags with
    | [] => some (.clip, none)
    | [c] =>
      if isAsciiDigit c then (digit c).map (Chomping.clip, some ·) else some (chomping c, none)
    | [c, d] =>
      if isAsciiDigit c && !isAsciiDigit d then (digit c).map (chomping d, some ·)
      else if isAsciiDigit d && !isAsciiDigit c then (digit d).map (chomping c, some ·)
      else none
    | _ => none

def lines (cs : List Char) : List (List Char) :=
  cs.foldr (fun c found =>
    if c = '\n' then [] :: found
    else
      match found with
      | [] => [[c]]
      | line :: rest => (c :: line) :: rest) [[]]

def indentOf (line : List Char) : Nat := (line.takeWhile (· == ' ')).length

def isEmptyLine (line : List Char) : Bool := line.all (· == ' ')

/-- The lines that belong to a block indented to a column. -/
def blockLines (indent : Nat) : List (List Char) → List (List Char)
  | [] => []
  | line :: rest =>
    if isEmptyLine line || indentOf line ≥ indent then line.drop indent :: blockLines indent rest
    else []

/-- The lines of a folded block: a single line end between two lines that are not indented further
becomes a space. -/
def foldLines : List (List Char) → List Char
  | [] => []
  | [line] => line
  | line :: next :: rest =>
    let indented := fun (l : List Char) => l.head? = some ' ' || l.head? = some '\t'
    let more := foldLines (next :: rest)
    if line.isEmpty then '\n' :: more
    else if next.isEmpty then
      let blanks := ((next :: rest).takeWhile List.isEmpty).length
      let following := ((next :: rest).drop blanks).head?
      if indented line || (following.map indented).getD true then line ++ '\n' :: more
      else line ++ more
    else if indented line || indented next then line ++ '\n' :: more
    else line ++ ' ' :: more

/-- The text of a block from its lines. -/
def blockText (isFolded : Bool) (chomping : Chomping) (block : List (List Char)) : List Char :=
  let blanks := (block.reverse.takeWhile List.isEmpty).length
  let body := block.take (block.length - blanks)
  let text :=
    if isFolded then foldLines body
    else (body.map (· ++ ['\n'])).flatten.dropLast
  match chomping with
  | .strip => text
  | .clip => if body.isEmpty then [] else text ++ ['\n']
  | .keep =>
    (if body.isEmpty then [] else text ++ ['\n']) ++ List.replicate blanks '\n'

/-- A block of text after its sign, inside a node that stands at a column. -/
def blockScalar? (isFolded : Bool) (minColumn : Nat) (cur : Cursor) :
    Option (List Char × Cursor) :=
  match lines cur.rest with
  | [] => none
  | header :: following => do
    let (chomping, given) ← blockHeader? header
    let first := following.find? fun line => !isEmptyLine line
    let indent :=
      match given with
      | some n => minColumn - 1 + n
      | none => max minColumn ((first.map indentOf).getD minColumn)
    let atEnd := following.getLast? = some []
    let content := if atEnd then following.dropLast else following
    let block := blockLines indent content
    let after := following.drop block.length
    let rest :=
      match after with
      | [] => []
      | _ => (after.map (· ++ ['\n'])).flatten.dropLast
    return (blockText isFolded chomping block, ⟨0, '\n' :: rest⟩)

end DesignTokens.Yaml

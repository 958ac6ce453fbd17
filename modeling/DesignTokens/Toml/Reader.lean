import DesignTokens.Toml.Scalar

/-! # Reading TOML

`Toml.read?` reads a text as entries under headings, one statement a line.  Nested values and
dotted keys are read within a budget that the length of the text bounds.
-/

namespace DesignTokens.Toml

def isGap (c : Char) : Bool := c = ' ' || c = '\t'

def skipGap (cs : List Char) : List Char := cs.dropWhile isGap

/-- The rest after blanks, line ends and comments. -/
def skipLines? : (inComment : Bool) → List Char → Option (List Char)
  | _, [] => some []
  | true, c :: rest =>
    if c = '\n' then skipLines? false rest
    else if isForbidden c then none
    else skipLines? true rest
  | false, c :: rest =>
    if isGap c || c = '\n' then skipLines? false rest
    else if c = '#' then skipLines? true rest
    else some (c :: rest)

/-- The rest of a line after a comment, if there is one. -/
def skipComment? (cs : List Char) : Option (List Char) :=
  match cs with
  | '#' :: rest =>
    if (rest.takeWhile (· != '\n')).any isForbidden then none
    else some (rest.dropWhile (· != '\n'))
  | _ => some cs

/-! ## Keys -/

def isBare (c : Char) : Bool :=
  isAsciiDigit c || ('a' ≤ c && c ≤ 'z') || ('A' ≤ c && c ≤ 'Z') || c = '-' || c = '_'

def name? (cs : List Char) : Option (String × List Char) :=
  match cs with
  | [] => none
  | c :: rest =>
    if isBare c then some (String.ofList (cs.takeWhile isBare), cs.dropWhile isBare)
    else
      let read :=
        if c = Text.singleQuote then literalText rest
        else if c = Text.doubleQuote then escapedText false .plain rest
        else none
      read.map fun (read, rest) => (String.ofList read, rest)

/-- A dotted key, and the rest after the blanks that follow it. -/
def key? : (budget : Nat) → List Char → Option (Path × List Char)
  | 0, _ => none
  | budget + 1, cs => do
    let (name, rest) ← name? cs
    match skipGap rest with
    | '.' :: rest =>
      let (path, rest) ← key? budget (skipGap rest)
      return (name :: path, rest)
    | rest => return ([name], rest)

/-- A key and the rest from its value on. -/
def keyOfEntry? (cs : List Char) : Option (Path × List Char) := do
  let (key, rest) ← key? (cs.length + 1) cs
  let rest ← mark? '=' rest
  return (key, skipGap rest)

/-! ## Values -/

mutual

def item? : (budget : Nat) → List Char → Option (Item × List Char)
  | 0, _ => none
  | budget + 1, cs =>
    match cs with
    | '[' :: rest => items? budget [] rest
    | '{' :: rest =>
      match skipGap rest with
      | '}' :: rest => some (.table [], rest)
      | rest => members? budget ⟨[], []⟩ rest
    | _ => scalar? cs

/-- The items of a list, after its opening bracket or a comma. -/
def items? : (budget : Nat) → (items : List Item) → List Char → Option (Item × List Char)
  | 0, _, _ => none
  | budget + 1, items, cs => do
    match ← skipLines? false cs with
    | ']' :: rest => some (.list items, rest)
    | rest =>
      let (item, rest) ← item? budget rest
      match ← skipLines? false rest with
      | ',' :: rest => items? budget (items ++ [item]) rest
      | ']' :: rest => some (.list (items ++ [item]), rest)
      | _ => none

/-- The entries of an inline table, from a key on. -/
def members? : (budget : Nat) → InlineDraft → List Char → Option (Item × List Char)
  | 0, _, _ => none
  | budget + 1, draft, cs => do
    let (key, rest) ← keyOfEntry? cs
    let (item, rest) ← item? budget rest
    let draft ← draft.assign key item
    match skipGap rest with
    | ',' :: rest => members? budget draft (skipGap rest)
    | '}' :: rest => some (.table draft.members, rest)
    | _ => none

end

/-! ## Statements -/

/-- One statement: a heading, an entry or nothing before a comment. -/
def statement? (draft : Draft) (cs : List Char) : Option (Draft × List Char) :=
  match cs with
  | '[' :: '[' :: rest => do
    let (path, rest) ← key? (rest.length + 1) (skipGap rest)
    let rest ← mark? ']' (← mark? ']' rest)
    return (← draft.openNext path, rest)
  | '[' :: rest => do
    let (path, rest) ← key? (rest.length + 1) (skipGap rest)
    let rest ← mark? ']' rest
    return (← draft.openTable path, rest)
  | '#' :: _ => some (draft, cs)
  | _ => do
    let (key, rest) ← keyOfEntry? cs
    let (item, rest) ← item? (rest.length + 1) rest
    return (← draft.assign key item, rest)

/-- The statements of a text, one a line. -/
def statements? : (budget : Nat) → Draft → List Char → Option Draft
  | 0, _, _ => none
  | budget + 1, draft, cs =>
    match skipGap cs with
    | [] => some draft
    | '\n' :: rest => statements? budget draft rest
    | cs => do
      let (draft, rest) ← statement? draft cs
      match ← skipComment? (skipGap rest) with
      | [] => some draft
      | '\n' :: rest => statements? budget draft rest
      | _ => none

/-- The table that a TOML text writes. -/
def read? (text : String) : Option (Table String Item) :=
  (statements? (text.length + 1) .start text.toList).map Draft.members

end DesignTokens.Toml

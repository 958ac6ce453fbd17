import DesignTokens.Value.Display
import DesignTokens.Yaml.Cursor

/-! # Reading YAML

`Yaml.read?` reads a text that holds one document of block or flow collections and scalars.  Keys
are texts: a key of another kind is spelled as messages spell it.  Anchors, tags and keys that are
collections are not read.

Every function below works within a budget, which the nesting of a text and the number of its
tokens cannot exceed.
-/

namespace DesignTokens.Yaml

def keyText? : Value → Option String
  | .list _ => none
  | .object _ => none
  | v => some v.plain

/-- Whether a colon that ends a key stands at the cursor. -/
def isColon (cur : Cursor) : Bool :=
  match cur.rest with
  | ':' :: rest => Cursor.isBreak rest
  | _ => false

/-- Whether a dash that begins an item stands at the cursor. -/
def isDash (cur : Cursor) : Bool :=
  match cur.rest with
  | '-' :: rest => Cursor.isBreak rest && !cur.isMarker
  | _ => false

/-! ## Flow collections -/

mutual

def flowNode : (budget : Nat) → Cursor → Option (Value × Cursor)
  | 0, _ => none
  | budget + 1, cur =>
    match quotedText? cur with
    | some quoted => quoted.map fun q => (.text (String.ofList q.text), q.cursor)
    | none =>
      match cur.rest with
      | '[' :: _ => flowItems budget [] cur.advance
      | '{' :: _ => flowMembers budget [] cur.advance
      | _ =>
        if startsPlain true cur.rest then
          let (cs, _, next) := plain true 0 (cur.rest.length + 1) cur
          some (scalar cs, next)
        else none

/-- The value after a key inside brackets: null if the next entry or the end follows. -/
def flowValue : (budget : Nat) → Cursor → Option (Value × Cursor)
  | 0, _ => none
  | budget + 1, cur =>
    let (_, cur) := cur.gap
    match cur.rest with
    | c :: _ => if ",]\x7d".toList.contains c then some (.null, cur) else flowNode budget cur
    | [] => none

/-- The items of a list, after its opening bracket or a comma.  An item with a colon is an object
of one member. -/
def flowItems : (budget : Nat) → (items : List Value) → Cursor → Option (Value × Cursor)
  | 0, _, _ => none
  | budget + 1, items, cur =>
    let (_, cur) := cur.gap
    match cur.rest with
    | ']' :: _ => some (.list items.reverse, cur.advance)
    | _ => do
      let (v, cur) ← flowNode budget cur
      let (_, cur) := cur.gap
      let (v, cur) ←
        match cur.rest with
        | ':' :: _ => do
          let key ← keyText? v
          let (w, cur) ← flowValue budget cur.advance
          pure (Value.object [(key, w)], cur)
        | _ => pure (v, cur)
      let (_, cur) := cur.gap
      match cur.rest with
      | ',' :: _ => flowItems budget (v :: items) cur.advance
      | ']' :: _ => some (.list (v :: items).reverse, cur.advance)
      | _ => none

/-- The members of an object, after its opening brace or a comma. -/
def flowMembers : (budget : Nat) → Table String Value → Cursor → Option (Value × Cursor)
  | 0, _, _ => none
  | budget + 1, members, cur =>
    let (_, cur) := cur.gap
    match cur.rest with
    | '}' :: _ => some (.object members, cur.advance)
    | _ => do
      let (v, cur) ← flowNode budget cur
      let key ← keyText? v
      let (_, cur) := cur.gap
      let (w, cur) ←
        match cur.rest with
        | ':' :: _ => flowValue budget cur.advance
        | _ => pure (Value.null, cur)
      let members := members.put key w
      let (_, cur) := cur.gap
      match cur.rest with
      | ',' :: _ => flowMembers budget members cur.advance
      | '}' :: _ => some (.object members, cur.advance)
      | _ => none

end

/-! ## Block collections -/

/-- A scalar on one line with a colon after it, as a key. -/
def blockKey? (cur : Cursor) : Option (String × Cursor) :=
  match quotedText? cur with
  | some none => none
  | some (some q) =>
    let next := q.cursor.skipSpaces
    if !q.multiline && isColon next then some (String.ofList q.text, next.advance) else none
  | none =>
    if startsPlain false cur.rest then
      let (cs, multiline, next) := plain false 0 (cur.rest.length + 1) cur
      let next := next.skipSpaces
      if !multiline && isColon next then some ((scalar cs).plain, next.advance) else none
    else none

mutual

/-- A node at a cursor.  It may be a block collection where a line or an item begins. -/
def blockNode : (budget minColumn : Nat) → (canBeBlock : Bool) → Cursor → Option (Value × Cursor)
  | 0, _, _, _ => none
  | budget + 1, minColumn, canBeBlock, cur =>
    if isDash cur then if canBeBlock then blockItems budget cur.column [] cur else none
    else
      match blockKey? cur with
      | some _ => if canBeBlock then blockMembers budget cur.column [] cur else none
      | none =>
        match cur.rest with
        | '|' :: rest =>
          (blockScalar? false minColumn ⟨cur.column + 1, rest⟩).map fun (cs, cur) =>
            (.text (String.ofList cs), cur)
        | '>' :: rest =>
          (blockScalar? true minColumn ⟨cur.column + 1, rest⟩).map fun (cs, cur) =>
            (.text (String.ofList cs), cur)
        | '[' :: _ => flowNode budget cur
        | '{' :: _ => flowNode budget cur
        | _ =>
          match quotedText? cur with
          | some quoted => quoted.map fun q => (.text (String.ofList q.text), q.cursor)
          | none =>
            if startsPlain false cur.rest then
              let (cs, _, next) := plain false minColumn (cur.rest.length + 1) cur
              some (scalar cs, next)
            else none

/-- The value after a dash or a colon of a collection at a column: null if the collection goes on
or ends.  A list may stand at the column of the key that it belongs to. -/
def blockValue : (budget column : Nat) → (isItem : Bool) → Cursor → Option (Value × Cursor)
  | 0, _, _, _ => none
  | budget + 1, column, isItem, cur =>
    let (crossed, next) := cur.gap
    if next.rest.isEmpty || next.isMarker then some (.null, cur)
    else if !crossed then blockNode budget (column + 1) isItem next
    else if next.column > column then blockNode budget (column + 1) true next
    else if next.column = column && !isItem && isDash next then
      blockItems budget column [] next
    else some (.null, cur)

/-- The items of a list at a column, at a dash. -/
def blockItems : (budget column : Nat) → (items : List Value) → Cursor →
    Option (Value × Cursor)
  | 0, _, _, _ => none
  | budget + 1, column, items, cur => do
    let (v, cur) ← blockValue budget column true cur.advance
    let (crossed, next) := cur.gap
    if next.rest.isEmpty || next.isMarker || (crossed && next.column < column) then
      return (.list (v :: items).reverse, cur)
    else if !crossed || next.column > column then none
    else if isDash next then blockItems budget column (v :: items) next
    else return (.list (v :: items).reverse, cur)

/-- The members of an object at a column, at a key. -/
def blockMembers : (budget column : Nat) → Table String Value → Cursor →
    Option (Value × Cursor)
  | 0, _, _, _ => none
  | budget + 1, column, members, cur => do
    let (key, cur) ← blockKey? cur
    let (v, cur) ← blockValue budget column false cur
    let members := members.put key v
    let (crossed, next) := cur.gap
    if next.rest.isEmpty || next.isMarker || (crossed && next.column < column) then
      return (.object members, cur)
    else if !crossed || next.column > column then none
    else blockMembers budget column members next

end

/-! ## Documents -/

def isAllowed (c : Char) : Bool :=
  let n := c.toNat
  n = 0x9 || n = 0xa || n = 0xd || (0x20 ≤ n && n ≤ 0x7e) || n = 0x85 ||
    (0xa0 ≤ n && n ≤ 0xfffd) || 0x10000 ≤ n

def isFinished (cur : Cursor) : Bool :=
  let (crossed, next) := cur.gap
  next.rest.isEmpty ||
    (crossed && next.isMarker && next.rest.head? = some '.' &&
      (Cursor.gap ⟨3, next.rest.drop 3⟩).2.rest.isEmpty)

/-- The value that a YAML text of one document writes. -/
def read? (text : String) : Option Value :=
  let cs := text.toList
  if !cs.all isAllowed then none
  else
    let cs := if cs.head? = some (Char.ofNat 0xfeff) then cs.drop 1 else cs
    let (_, cur) := Cursor.gap ⟨0, cs⟩
    let begun := cur.isMarker && cur.rest.head? = some '-'
    let (crossed, cur) := if begun then Cursor.gap ⟨3, cur.rest.drop 3⟩ else (true, cur)
    if cur.rest.isEmpty || cur.isMarker then if isFinished cur then some .null else none
    else
      match blockNode (4 * cs.length + 4) 0 crossed cur with
      | some (v, cur) => if isFinished cur then some v else none
      | none => none

end DesignTokens.Yaml

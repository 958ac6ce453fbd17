import DesignTokens.Table
import DesignTokens.Value.Display

/-! # TOML documents

A TOML document is a table of items.  A `Draft` is a document that is being read: it remembers the
heading under which entries stand, which tables were declared by a heading and which lists and
tables are complete, because neither may be opened once more.
-/

namespace DesignTokens.Toml

/-- The kinds of points in time. -/
inductive Moment where
  | date
  | time
  | dateTime
  deriving DecidableEq, Repr, Inhabited

/-- A part of a TOML document. -/
inductive Item where
  | text (s : String)
  | int (n : Int)
  | real (x : Binary64)
  | bool (b : Bool)
  | moment (kind : Moment)
  | list (items : List Item)
  | table (members : List (String × Item))
  deriving Inhabited

namespace Item

/-- The name that messages give to the kind of an item. -/
def kindName : Item → String
  | .text _ => Value.Kind.text.name
  | .int _ => Value.Kind.int.name
  | .real _ => Value.Kind.real.name
  | .bool _ => Value.Kind.bool.name
  | .moment .date => "date"
  | .moment .time => "time"
  | .moment .dateTime => "datetime"
  | .list _ => Value.Kind.list.name
  | .table _ => Value.Kind.object.name

/-- Whether an item consists of other items. -/
def isNested : Item → Bool
  | .list _ => true
  | .table _ => true
  | _ => false

end Item

abbrev Path := List String

/-- Changes the table at a path.  Tables that are missing are made.  On the way a list of tables
stands for its last table if lists may be entered; anything else that is no table is in the way. -/
def changeAt (entersLists : Bool) (change : Table String Item → Option (Table String Item)) :
    Path → Table String Item → Option (Table String Item)
  | [], members => change members
  | name :: path, members =>
    match members.get? name with
    | none => (changeAt entersLists change path []).map fun inner => members.put name (.table inner)
    | some (.table inner) =>
      (changeAt entersLists change path inner).map fun inner => members.put name (.table inner)
    | some (.list items) =>
      match entersLists, items.getLast? with
      | true, some (.table inner) =>
        (changeAt entersLists change path inner).map fun inner =>
          members.put name (.list (items.dropLast ++ [.table inner]))
      | _, _ => none
    | some _ => none

def store (name : String) (item : Item) (members : Table String Item) :
    Option (Table String Item) :=
  if members.has name then none else some (members.put name item)

def appendTable (name : String) (members : Table String Item) : Option (Table String Item) :=
  match members.get? name with
  | none => some (members.put name (.list [.table []]))
  | some (.list items) => some (members.put name (.list (items ++ [.table []])))
  | some _ => none

def isWithin (path : Path) (paths : List Path) : Bool :=
  paths.any fun above => above.isPrefixOf path

/-- A document that is being read. -/
structure Draft where
  members : Table String Item
  heading : Path
  /-- The tables that no heading may declare again. -/
  declared : List Path
  /-- The tables made by dotted keys, which count as declared from the next heading on. -/
  pending : List Path
  complete : List Path
  deriving Inhabited

namespace Draft

def start : Draft := ⟨[], [], [], [], []⟩

/-- The draft in which the tables made by dotted keys are declared. -/
def settled (d : Draft) : Draft := { d with declared := d.pending ++ d.declared, pending := [] }

def openTable (d : Draft) (path : Path) : Option Draft :=
  let d := d.settled
  if d.declared.contains path || isWithin path d.complete then none
  else
    (changeAt true some path d.members).map fun members =>
      { d with members, heading := path, declared := path :: d.declared }

/-- A heading that opens the next table of a list.  What was declared below the table before it may
be declared again. -/
def openNext (d : Draft) (path : Path) : Option Draft :=
  let d := d.settled
  if isWithin path d.complete then none
  else
    let outside := fun (other : Path) => !path.isPrefixOf other
    (changeAt true (appendTable (path.getLast?.getD "")) path.dropLast d.members).map fun members =>
      { d with
        members, heading := path
        declared := path :: d.declared.filter outside
        complete := d.complete.filter outside }

/-- The proper beginnings of a key, which name the tables on the way to its item. -/
def beginnings (key : Path) : List Path :=
  (List.range (key.length - 1)).map fun n => key.take (n + 1)

def assign (d : Draft) (key : Path) (item : Item) : Option Draft :=
  let passed := (beginnings key).map (d.heading ++ ·)
  let table := d.heading ++ key.dropLast
  if passed.any d.declared.contains || isWithin table d.complete then none
  else
    (changeAt true (store (key.getLast?.getD "") item) table d.members).map fun members =>
      { d with
        members
        pending := passed ++ d.pending
        complete := if item.isNested then (d.heading ++ key) :: d.complete else d.complete }

end Draft

/-- An inline table that is being read, with its complete lists and tables. -/
structure InlineDraft where
  members : Table String Item
  complete : List Path
  deriving Inhabited

namespace InlineDraft

def assign (d : InlineDraft) (key : Path) (item : Item) : Option InlineDraft :=
  if isWithin key d.complete then none
  else
    (changeAt false (store (key.getLast?.getD "") item) key.dropLast d.members).map fun members =>
      ⟨members, if item.isNested then key :: d.complete else d.complete⟩

end InlineDraft

end DesignTokens.Toml

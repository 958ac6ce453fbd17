import DesignTokens.Reference.Scan

/-! # Token trees

A document is classified once into a tree: an object with a `$value` member is a token, every other
object a group.  A token or group records its dot path and the path of its parent.  A node has also
a place, the list of keys that leads to it from the root; places are unique even where paths are
not.
-/

namespace DesignTokens

/-- The member of an object that makes it a token. -/
def valueKey : String := "$value"

/-- The member that gives a token or group its type. -/
def typeKey : String := "$type"

/-- A token: a value with its type and the references that the value makes. -/
structure Token where
  name : String
  path : String
  value : Value
  type : Option String
  references : List String
  pointers : List String
  malformed : List String
  resolved : Bool
  /-- What the value stands for once it is resolved; null before. -/
  resolvedValue : Value
  metadata : Table String Value
  parentPath : Option String
  deriving Inhabited

namespace Token

def hasReferences (t : Token) : Bool :=
  !(t.references.isEmpty && t.pointers.isEmpty && t.malformed.isEmpty)

end Token

/-- What a group says of itself: all but its children. -/
structure Label where
  name : String
  path : String
  ownType : Option String
  metadata : Table String Value
  /-- Entries that are neither tokens nor groups, kept as they are. -/
  extras : Table String Value
  parentPath : Option String
  deriving Inhabited

/-- A token or a group with its children. -/
inductive Node where
  | token (t : Token)
  | group (label : Label) (children : List (String × Node))
  deriving Inhabited

/-- A group on its own, in particular the root of a tree. -/
structure Group where
  label : Label
  children : Table String Node
  deriving Inhabited

namespace Group

def toNode (g : Group) : Node := .group g.label g.children

end Group

/-- A place in a tree: the keys that lead to it from the root. -/
abbrev Place := List String

namespace Node

def path : Node → String
  | .token t => t.path
  | .group label _ => label.path

def parentPath : Node → Option String
  | .token t => t.parentPath
  | .group label _ => label.parentPath

def token? : Node → Option Token
  | .token t => some t
  | .group _ _ => none

def group? : Node → Option Group
  | .token _ => none
  | .group label children => some ⟨label, children⟩

def child? : Node → String → Option Node
  | .token _, _ => none
  | .group _ children, key => Table.get? children key

def at? (n : Node) : Place → Option Node
  | [] => some n
  | key :: place => (n.child? key).bind fun c => c.at? place

def modifyToken (f : Token → Token) : Node → Place → Node
  | .token t, [] => .token (f t)
  | .group label children, key :: place =>
    .group label (Table.modify children key fun c => modifyToken f c place)
  | n, _ => n

mutual

/-- The nodes below a node with their places: each group before its members, in document order. -/
def under (here : Place) : Node → List (Place × Node)
  | .token _ => []
  | .group _ children => underChildren here children

def underChildren (here : Place) : List (String × Node) → List (Place × Node)
  | [] => []
  | (key, n) :: rest =>
    let place := here ++ [key]
    (place, n) :: n.under place ++ underChildren here rest

end

end Node

namespace Group

/-- The nodes below the root with their places: each group before its members, in document
order. -/
def placedNodes (g : Group) : List (Place × Node) := g.toNode.under []

/-- The nodes below the root in document order. -/
def nodes (g : Group) : List Node := g.placedNodes.map Prod.snd

def placedTokens (g : Group) : List (Place × Token) :=
  g.placedNodes.filterMap fun p => p.2.token?.map (p.1, ·)

def tokens (g : Group) : List Token := g.placedTokens.map Prod.snd

def at? (g : Group) (place : Place) : Option Node := g.toNode.at? place

def tokenAt? (g : Group) (place : Place) : Option Token := (g.at? place).bind Node.token?

def modifyToken (g : Group) (place : Place) (f : Token → Token) : Group :=
  match g.toNode.modifyToken f place with
  | .group label children => ⟨label, children⟩
  | .token _ => g

/-- The place that a dot path names.  The empty path and the root's own path name the root; a path
that begins with the root's own path goes on from there. -/
def placeOf (g : Group) (path : String) : Place :=
  if path = "" ∨ path = g.label.path then []
  else
    let inner :=
      if g.label.path = "" then none
      else Text.afterFront? (g.label.path.toList ++ ['.']) path.toList
    (Text.splitOn '.' (inner.getD path.toList)).map String.ofList

/-- The node with a dot path. -/
def find? (g : Group) (path : String) : Option Node := g.at? (g.placeOf path)

def findToken? (g : Group) (path : String) : Option Token := (g.find? path).bind Node.token?

/-- The group that a node names as its parent. -/
def parentOf? (g : Group) (n : Node) : Option Group :=
  n.parentPath.bind fun path => (g.find? path).bind Node.group?

end Group

end DesignTokens

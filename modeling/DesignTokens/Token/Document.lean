import DesignTokens.Token.Build

/-! # From trees to documents

A group is written with its type first, then its metadata, its extras and its children.  A token
keeps a type of its own only where it differs from the one it inherits.
-/

namespace DesignTokens

def withMetadata (members metadata : Table String Value) : Table String Value :=
  metadata.foldl (fun t p => t.put ("$" ++ p.1) p.2) members

def ownTypeText (type : Option String) : Option String := effectiveType type none

def typeMember (type : Option String) : Table String Value :=
  match type with
  | some t => [(typeKey, .text t)]
  | none => []

namespace Token

def writtenValue (resolved : Bool) (t : Token) : Value :=
  if resolved && t.resolved then t.resolvedValue else t.value

def toValue (resolved : Bool) (inherited : Option String) (t : Token) : Value :=
  let type := ownTypeText t.type
  let stated := if type = inherited then none else type
  .object (withMetadata ((valueKey, t.writtenValue resolved) :: typeMember stated) t.metadata)

end Token

/-- The members of a group, its children apart. -/
def Label.members (label : Label) : Table String Value :=
  label.extras.foldl (fun t p => t.put p.1 p.2)
    (withMetadata (typeMember (ownTypeText label.ownType)) label.metadata)

namespace Node

mutual

/-- The document of a node.  With `resolved`, a resolved token is written with its resolved
value. -/
def toValue (resolved : Bool) (inherited : Option String) : Node → Value
  | .token t => t.toValue resolved inherited
  | .group label children =>
    .object (putChildren resolved (effectiveType label.ownType inherited) label.members children)

def putChildren (resolved : Bool) (inherited : Option String) (members : Table String Value) :
    List (String × Node) → Table String Value
  | [] => members
  | (key, n) :: children =>
    putChildren resolved inherited (members.put key (n.toValue resolved inherited)) children

end

end Node

namespace Group

/-- The document of a tree. -/
def toDocument (resolved : Bool) (g : Group) : Value := g.toNode.toValue resolved none

end Group

end DesignTokens

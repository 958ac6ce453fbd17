import DesignTokens.Token.Tree

/-! # From documents to trees

Building is permissive: a document that is not an object gives an empty group, and an entry that is
not an object is kept among the extras of its group.  A token without a type of its own takes the
type of the nearest group above it that has one.
-/

namespace DesignTokens

def childPath (parent key : String) : String := if parent = "" then key else parent ++ "." ++ key

def lastSegment (path : String) : String := ((Text.split '.' path).getLast?).getD path

/-- The name of a group with a path. -/
def groupName (path : String) : String := if path = "" then "root" else lastSegment path

/-- The key of a metadata member without its dollar sign, if the key has one. -/
def metadataKey? (key : String) : Option String :=
  match key.toList with
  | '$' :: rest => some (String.ofList rest)
  | _ => none

/-- A type that is not empty, else the inherited one. -/
def effectiveType (own inherited : Option String) : Option String :=
  match own with
  | some "" => inherited
  | some type => some type
  | none => inherited

namespace Token

/-- The metadata of a token: its members with a dollar sign, the value and the type apart. -/
def metadataOf (members : Table String Value) : Table String Value :=
  members.filterMap fun (key, v) =>
    if key = valueKey ∨ key = typeKey then none else (metadataKey? key).map (·, v)

/-- The token of an object with a value.  It is resolved at once if its value refers to
nothing. -/
def build (name path : String) (members : Table String Value)
    (parentPath inherited : Option String) : Token :=
  let value := (members.get? valueKey).getD .null
  let scan := Scan.of value
  let isPlain := scan.aliases.isEmpty && scan.pointers.isEmpty && scan.malformed.isEmpty
  { name, path, value, parentPath
    type := ((members.get? typeKey).bind Value.text?).or inherited
    references := scan.aliases
    pointers := scan.pointers
    malformed := scan.malformed
    resolved := isPlain
    resolvedValue := if isPlain then value else .null
    metadata := metadataOf members }

end Token

namespace Label

/-- What the members of a group say of it. -/
def build (path : String) (parentPath : Option String) (members : Table String Value) : Label where
  name := groupName path
  path := path
  ownType := (members.get? typeKey).bind Value.text?
  metadata := members.filterMap fun (key, v) =>
    if key = typeKey then none else (metadataKey? key).map (·, v)
  extras := members.filter fun (key, v) => (metadataKey? key).isNone && !v.isObject
  parentPath := parentPath

end Label

namespace Node

mutual

/-- The node of an object, and nothing for any other value. -/
def build? (key path parentPath : String) (inherited : Option String) : Value → Option Node
  | .object members =>
    let table : Table String Value := members
    if table.has valueKey then
      some (.token (Token.build key path table (some parentPath) inherited))
    else
      let label := Label.build path (some parentPath) table
      some (.group label (buildChildren path (effectiveType label.ownType inherited) members))
  | _ => none

/-- The nodes of those members of a group that are objects. -/
def buildChildren (path : String) (inherited : Option String) :
    List (String × Value) → List (String × Node)
  | [] => []
  | (key, v) :: members =>
    let children := buildChildren path inherited members
    if (metadataKey? key).isSome then children
    else
      match build? key (childPath path key) path inherited v with
      | some n => (key, n) :: children
      | none => children

end

end Node

namespace Group

def buildAt (path : String) (parentPath inherited : Option String) (document : Value) : Group :=
  let members := document.members?.getD []
  let label := Label.build path parentPath members
  ⟨label, Node.buildChildren path (effectiveType label.ownType inherited) members⟩

/-- The tree of a document. -/
def build (document : Value) : Group := buildAt "" none none document

end Group

end DesignTokens

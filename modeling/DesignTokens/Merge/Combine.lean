import DesignTokens.Merge.Conflict

/-! # Merging documents

The second document is laid over the first.  Groups are merged key by key, tokens member by member
and two object values field by field; everything else is replaced.  Keys of the first document keep
their place and new keys go last.  A merge with a conflict yields nothing.

The keys of these documents are texts; `DesignTokens.Merge.Keyed` merges those with integers among
their keys.
-/

namespace DesignTokens

/-- Why documents cannot be merged. -/
inductive MergeError (α : Type := Value) where
  | conflicts (first : Conflict α) (others : List (Conflict α))
  /-- A type that is a list or an object is no name of a type, so fields cannot be merged by it. -/
  | typeWithoutName (type : α)
  deriving Inhabited

namespace MergeError

/-- The number of further conflicts that a message lists. -/
def listedConflicts : Nat := 3

/-- The message about conflicts: the first one in full, and a line for each of the next. -/
def conflictMessage {α : Type} [Display α] (first : Conflict α) (others : List (Conflict α)) :
    String :=
  let hidden := others.length - listedConflicts
  let lines :=
    ["Cannot merge token documents: " ++ first.describe] ++
    (if others.isEmpty then []
      else
        ["Additional conflicts:"] ++
        ((others.take listedConflicts).map fun c => "  - " ++ c.path ++ ": " ++ c.message) ++
        (if hidden > 0 then ["  ... and " ++ toString hidden ++ " more"] else []))
  Text.joinWith "\n" lines

end MergeError

namespace Merge

def isTypeName : Option Value → Bool
  | some (.list _) => false
  | some (.object _) => false
  | _ => true

/-- The members of one object with those of another stored over them. -/
def overlay {κ α : Type} [DecidableEq κ] (a b : Table κ α) : Table κ α :=
  b.foldl (fun t p => t.put p.1 p.2) a

mutual

/-- Objects are merged at every depth; anything else is replaced. -/
def deep (a : Value) : Value → Value
  | .object members =>
    match a with
    | .object old => .object (deepMembers old old members)
    | _ => .object members
  | b => b

/-- The members of an object merged over those of another, at every depth. -/
def deepMembers (old result : Table String Value) : List (String × Value) → Table String Value
  | [] => result
  | (key, v) :: members =>
    let merged :=
      match old.get? key with
      | some w => deep w v
      | none => v
    deepMembers old (result.put key merged) members

end

/-- The values of two tokens: two objects are merged field by field, all else is replaced. -/
def values (type : Option Value) : (a b : Value) → Except MergeError Value
  | .object old, .object members =>
    if isTypeName type then .ok (.object (overlay old members))
    else .error (.typeWithoutName (type.getD .null))
  | _, b => .ok b

/-- The member of a token that holds what other tools add. -/
def extensionsKey : String := "$extensions"

/-- The members of a token merged over those of another. -/
def tokenMembers (type : Option Value) (old : Table String Value) :
    (result : Table String Value) → List (String × Value) → Except MergeError (Table String Value)
  | result, [] => .ok result
  | result, (key, v) :: members =>
    if key = valueKey then do
      let merged ← values type ((old.get? key).getD .null) v
      tokenMembers type old (result.put key merged) members
    else
      let merged :=
        if key = extensionsKey then deep ((old.get? key).getD (.object [])) v else v
      tokenMembers type old (result.put key merged) members

/-- The type of a pair of nodes: that of the second, else that of the first, else the inherited
one. -/
def pairType (a b : Table String Value) (inherited : Option Value) : Option Value :=
  Value.firstStated [b.get? typeKey, a.get? typeKey, inherited]

/-- Two tokens, the second over the first. -/
def tokens (inherited : Option Value) (a b : Table String Value) : Except MergeError Value :=
  (tokenMembers (pairType a b inherited) a a b).map .object

/-- A member of the group itself: a type that says nothing leaves the old type, and anything else
is merged at every depth. -/
def ownMember (old : Table String Value) (key : String) (v : Value) : Value :=
  if key = typeKey then if v.isVacant then (old.get? key).getD .null else v
  else
    match old.get? key with
    | some w => deep w v
    | none => v

mutual

/-- A child that both groups have. -/
def child (inherited : Option Value) (a : Value) : Value → Except MergeError Value
  | .object members =>
    let table : Table String Value := members
    match a with
    | .object old =>
      let oldTable : Table String Value := old
      if oldTable.has valueKey then
        if table.has valueKey then tokens inherited old table else .ok (.object members)
      else if table.has valueKey then .ok (.object members)
      else
        (groupMembers (pairType old table inherited) old old members).map .object
    | _ => .ok (.object members)
  | b => .ok b

/-- The members of a group merged over those of another. -/
def groupMembers (type : Option Value) (old result : Table String Value) :
    List (String × Value) → Except MergeError (Table String Value)
  | [] => .ok result
  | (key, v) :: members => do
    let merged ←
      if Conflict.isOwnKey key then .ok (ownMember old key v)
      else
        match old.get? key with
        | some w => child type w v
        | none => .ok v
    groupMembers type old (result.put key merged) members

end

/-- One document over another, whether or not they are in conflict. -/
def unchecked (a b : Value) : Except MergeError Value :=
  let old := a.members?.getD []
  let members := b.members?.getD []
  (groupMembers (pairType old members none) old old members).map .object

/-- One document over another, if they are not in conflict. -/
def documents (a b : Value) : Except MergeError Value :=
  match Conflict.between a b with
  | [] => unchecked a b
  | first :: others => .error (.conflicts first others)

/-- Documents merged from the first to the last; no documents make an empty one. -/
def all : List Value → Except MergeError Value
  | [] => .ok (.object [])
  | first :: others => others.foldlM documents first

end Merge

end DesignTokens

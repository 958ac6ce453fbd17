import DesignTokens.Merge.Combine
import DesignTokens.Value.Keyed

/-! # Merging documents with numbers for keys

Two groups are compared and merged by the texts of their keys: the step `100` of one file and the
step `"100"` of another are one entry, and a merged group has texts for keys.  Tokens, and what
stands under a key that begins with a dollar sign, keep their keys as they are.  So does an entry
that is taken over whole.
-/

namespace DesignTokens

namespace Keyed

def isToken : Keyed → Bool
  | .object members => Table.has members (.text valueKey)
  | _ => false

def isGroup : Keyed → Bool
  | .object members => !Table.has members (.text valueKey)
  | _ => false

def typeOf : Keyed → Option Keyed
  | .object members => Table.get? members (.text typeKey)
  | _ => none

def firstStated (values : List (Option Keyed)) : Option Keyed :=
  values.findSome? fun v => v.filter fun v => !v.isVacant

/-! ### Conflicts -/

def ofTokens (a b : Keyed) (path : String) (inherited : Option Keyed) : List (Conflict Keyed) :=
  match firstStated [typeOf a, inherited], firstStated [typeOf b, inherited] with
  | some s, some t => if s.same t then [] else [⟨Conflict.displayPath path, .types s t, a, b⟩]
  | _, _ => []

mutual

/-- The conflicts at a path and below it. -/
def walk (b : Keyed) (path : String) (inherited : Option Keyed) : Keyed → List (Conflict Keyed)
  | .object members =>
    let a := Keyed.object members
    if a.isToken then
      if b.isToken then ofTokens a b path inherited
      else if b.isGroup then [⟨Conflict.displayPath path, .tokenAndGroup true, a, b⟩]
      else []
    else if b.isToken then [⟨Conflict.displayPath path, .tokenAndGroup false, a, b⟩]
    else
      match b with
      | .object others =>
        let found := walkMembers (textKeys others) path
          (firstStated [typeOf b, typeOf a, inherited]) members
        (Table.ofPairs found).flatMap Prod.snd
      | _ => []
  | _ => []

/-- The conflicts below each member of a group that the other group has too, under the text of the
member's key. -/
def walkMembers (others : Table String Keyed) (path : String) (inherited : Option Keyed) :
    List (Key × Keyed) → List (String × List (Conflict Keyed))
  | [] => []
  | (key, v) :: members =>
    (key.spelling,
      if Conflict.isOwnKey key.spelling then []
      else
        match others.get? key.spelling with
        | some w => walk w (Conflict.joinPath path key.spelling) inherited v
        | none => []) :: walkMembers others path inherited members

end

def between (a b : Keyed) : List (Conflict Keyed) := walk b "" none a

/-! ### Members of tokens and of groups themselves -/

mutual

/-- Objects are merged at every depth; anything else is replaced. -/
def deep (a : Keyed) : Keyed → Keyed
  | .object members =>
    match a with
    | .object old => .object (deepMembers old old members)
    | _ => .object members
  | b => b

def deepMembers (old result : Table Key Keyed) : List (Key × Keyed) → Table Key Keyed
  | [] => result
  | (key, v) :: members =>
    let merged :=
      match old.get? key with
      | some w => deep w v
      | none => v
    deepMembers old (result.put key merged) members

end

def isTypeName : Option Keyed → Bool
  | some (.list _) => false
  | some (.object _) => false
  | _ => true

/-- The values of two tokens: two objects are merged field by field, all else is replaced. -/
def values (type : Option Keyed) : (a b : Keyed) → Except (MergeError Keyed) Keyed
  | .object old, .object members =>
    if isTypeName type then .ok (.object (Merge.overlay old members))
    else .error (.typeWithoutName (type.getD (.scalar .null)))
  | _, b => .ok b

/-- The members of a token merged over those of another. -/
def tokenMembers (type : Option Keyed) (old : Table Key Keyed) :
    (result : Table Key Keyed) → List (Key × Keyed) → Except (MergeError Keyed) (Table Key Keyed)
  | result, [] => .ok result
  | result, (key, v) :: members =>
    if key = .text valueKey then do
      let merged ← values type ((old.get? key).getD (.scalar .null)) v
      tokenMembers type old (result.put key merged) members
    else
      let merged :=
        if key = .text Merge.extensionsKey then deep ((old.get? key).getD (.object [])) v else v
      tokenMembers type old (result.put key merged) members

def tokens (inherited : Option Keyed) (a b : Table Key Keyed) :
    Except (MergeError Keyed) Keyed :=
  let type := firstStated [b.get? (.text typeKey), a.get? (.text typeKey), inherited]
  (tokenMembers type a a b).map .object

/-- A member of the group itself: a type that says nothing leaves the old type, and anything else
is merged at every depth. -/
def ownMember (old : Table String Keyed) (key : String) (v : Keyed) : Keyed :=
  if key = typeKey then if v.isVacant then (old.get? key).getD (.scalar .null) else v
  else
    match old.get? key with
    | some w => deep w v
    | none => v

/-! ### Groups -/

/-- Members stored one after the other, unless one of them could not be merged. -/
def lay (result : Table String Keyed) :
    List (String × Except (MergeError Keyed) Keyed) →
      Except (MergeError Keyed) (Table String Keyed)
  | [] => .ok result
  | (key, merged) :: members => do lay (result.put key (← merged)) members

mutual

/-- A child that both groups have. -/
def child (inherited : Option Keyed) (a : Keyed) : Keyed → Except (MergeError Keyed) Keyed
  | .object members =>
    match a with
    | .object first =>
      if Table.has first (.text valueKey) then
        if Table.has members (.text valueKey) then tokens inherited first members
        else .ok (.object members)
      else if Table.has members (.text valueKey) then .ok (.object members)
      else
        let old := textKeys first
        let type := firstStated [(textKeys members).get? typeKey, old.get? typeKey, inherited]
        (lay old (Table.ofPairs (groupMembers type old members))).map ofTable
    | _ => .ok (.object members)
  | b => .ok b

/-- What becomes of each member of a group that is merged over another, under the text of its
key. -/
def groupMembers (type : Option Keyed) (old : Table String Keyed) :
    List (Key × Keyed) → List (String × Except (MergeError Keyed) Keyed)
  | [] => []
  | (key, v) :: members =>
    (key.spelling,
      if Conflict.isOwnKey key.spelling then .ok (ownMember old key.spelling v)
      else
        match old.get? key.spelling with
        | some w => child type w v
        | none => .ok v) :: groupMembers type old members

end

def members : Keyed → List (Key × Keyed)
  | .object members => members
  | _ => []

def unchecked (a b : Keyed) : Except (MergeError Keyed) Keyed :=
  let old := textKeys a.members
  let type := firstStated [(textKeys b.members).get? typeKey, old.get? typeKey, none]
  (lay old (Table.ofPairs (groupMembers type old b.members))).map ofTable

/-- One document over another, if they are not in conflict. -/
def documents (a b : Keyed) : Except (MergeError Keyed) Keyed :=
  match between a b with
  | [] => unchecked a b
  | first :: others => .error (.conflicts first others)

/-- Documents merged from the first to the last; no documents make an empty one. -/
def all : List Keyed → Except (MergeError Keyed) Keyed
  | [] => .ok (.object [])
  | first :: others => others.foldlM documents first

end Keyed

end DesignTokens

import DesignTokens.Token.Tree
import DesignTokens.Value.Display

/-! # Conflicts between documents

Two documents are walked in lock-step through the groups that they share.  At a key of both, a token
and a group are in conflict, and so are two tokens of different types.  A token without a type of
its own has the type inherited at that place: of each pair of groups on the way down the type of the
second document counts, else that of the first.
-/

namespace DesignTokens

namespace Value

def isToken : Value → Bool
  | .object members => Table.has members valueKey
  | _ => false

def isGroup : Value → Bool
  | .object members => !Table.has members valueKey
  | _ => false

/-- The first of some values that says something. -/
def firstStated (values : List (Option Value)) : Option Value :=
  values.findSome? fun v => v.filter fun v => !v.isVacant

end Value

/-- What is wrong where two documents meet. -/
inductive Mismatch (α : Type := Value) where
  | tokenAndGroup (tokenIsLeft : Bool)
  | types (left right : α)
  deriving Inhabited

namespace Mismatch

variable {α : Type}

def kindName : Mismatch α → String
  | tokenAndGroup _ => "group-token-conflict"
  | types _ _ => "type-mismatch"

def message [Display α] : Mismatch α → String
  | tokenAndGroup tokenIsLeft =>
    "Token (" ++ (if tokenIsLeft then "left" else "right") ++ ") and group cannot be merged"
  | types left right =>
    "Type mismatch: " ++ Display.plain left ++ " vs " ++ Display.plain right

end Mismatch

/-- A place where two documents cannot be merged. -/
structure Conflict (α : Type := Value) where
  path : String
  mismatch : Mismatch α
  left : α
  right : α
  deriving Inhabited

namespace Conflict

section Messages

variable {α : Type} [Display α]

def message (c : Conflict α) : String := c.mismatch.message

def describe (c : Conflict α) : String :=
  c.message ++ " at " ++ c.path ++ " (" ++ c.mismatch.kindName ++ ")\n    left:  "
    ++ Display.described Value.describedLimit c.left ++ "\n    right: "
    ++ Display.described Value.describedLimit c.right

end Messages

/-- A path in a message: the empty path is the root. -/
def displayPath (path : String) : String := if path = "" then "root" else path

def joinPath (path key : String) : String := if path = "" then key else path ++ "." ++ key

/-- Whether a key belongs to the group itself and not to a child. -/
def isOwnKey (key : String) : Bool :=
  match key.toList with
  | '$' :: _ => true
  | _ => false

/-- The type that a group stands for. -/
def typeOf (v : Value) : Option Value := v.member? typeKey

def ofTokens (a b : Value) (path : String) (inherited : Option Value) : List Conflict :=
  match Value.firstStated [typeOf a, inherited], Value.firstStated [typeOf b, inherited] with
  | some s, some t => if s.same t then [] else [⟨displayPath path, .types s t, a, b⟩]
  | _, _ => []

mutual

/-- The conflicts at a path and below it. -/
def walk (b : Value) (path : String) (inherited : Option Value) : Value → List Conflict
  | .object members =>
    let a := Value.object members
    if a.isToken then
      if b.isToken then ofTokens a b path inherited
      else if b.isGroup then [⟨displayPath path, .tokenAndGroup true, a, b⟩]
      else []
    else if b.isToken then [⟨displayPath path, .tokenAndGroup false, a, b⟩]
    else
      match b with
      | .object others =>
        walkMembers others path (Value.firstStated [typeOf b, typeOf a, inherited]) members
      | _ => []
  | _ => []

/-- The conflicts at the keys of a group that the other group has too. -/
def walkMembers (others : Table String Value) (path : String) (inherited : Option Value) :
    List (String × Value) → List Conflict
  | [] => []
  | (key, v) :: members =>
    (if isOwnKey key then []
      else
        match others.get? key with
        | some w => walk w (joinPath path key) inherited v
        | none => []) ++ walkMembers others path inherited members

end

/-- The conflicts between two documents, in the order of the first. -/
def between (a b : Value) : List Conflict := walk b "" none a

end Conflict

end DesignTokens

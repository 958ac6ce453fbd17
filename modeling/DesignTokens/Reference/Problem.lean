import DesignTokens.Reference.Alias
import DesignTokens.Reference.Pointer
import DesignTokens.Token.Tree
import DesignTokens.Value.Writable

/-! # Problems with references

References that cannot be followed are collected and never stop the work.  A problem belongs to the
token that holds the reference; its kind may come from another token on which that one depends.
-/

namespace DesignTokens

/-- The kinds of problems. -/
inductive ProblemKind where
  | missing | circular | depth | invalid
  deriving DecidableEq, Repr, Inhabited

namespace ProblemKind

def name : ProblemKind → String
  | missing => "missing"
  | circular => "circular"
  | depth => "depth"
  | invalid => "invalid"

/-- The kind with a name. -/
def ofName? : String → Option ProblemKind
  | "missing" => some missing
  | "circular" => some circular
  | "depth" => some depth
  | "invalid" => some invalid
  | _ => none

end ProblemKind

/-- What is wrong with a reference. -/
inductive Cause where
  | pointer (fault : PointerFault)
  | tooDeep (limit : Int)
  | noProject (file : String)
  | fileNotLoaded (file : String)
  | pastToken (ref segment : String)
  | noToken (ref : String)
  | atGroup (ref : String)
  | noValue (ref : String)
  | circularPointer (path : String)
  | unresolvedTarget (path : String)
  | cycle (members : List String)
  | malformed (text : String)
  | leftPointer (ref : String)
  | aliasOfNothing (path : String)
  | aliasOfGroup (path : String)
  | dependsOn (path : String)
  | notInText (kind : Value.Kind)
  | vanished (path : String)
  | other (message : String)
  deriving Inhabited

namespace Cause

/-- The members of a cycle, the first one again at the end. -/
def loop (members : List String) : String :=
  Text.joinWith " -> " (members ++ members.take 1)

/-- The wording of a cause. -/
def message : Cause → String
  | pointer fault => fault.message
  | tooDeep limit => "Maximum reference depth (" ++ toString limit ++ ") exceeded"
  | noProject file => "Cannot follow cross-file $ref without a project: " ++ file
  | fileNotLoaded file => "Referenced file not loaded: " ++ file
  | pastToken ref segment =>
    "Reference to non-existent token: " ++ ref ++ " (" ++ Text.quoted segment
      ++ " follows a token)"
  | noToken ref => "Reference to non-existent token: " ++ ref
  | atGroup ref => "Reference points at a group, not a token: " ++ ref
  | noValue ref => "Reference to non-existent value: " ++ ref
  | circularPointer path => "Circular $ref through " ++ path
  | unresolvedTarget path => "Target " ++ path ++ " has unresolved $ref"
  | cycle members => "Circular reference detected: " ++ loop members
  | malformed text => "Malformed reference syntax: " ++ text
  | leftPointer ref => "Unresolved $ref: " ++ ref
  | aliasOfNothing path => "Reference to non-existent token: " ++ Alias.ofPath path
  | aliasOfGroup path => "Reference to a group: " ++ Alias.ofPath path
  | dependsOn path => "Depends on unresolved token " ++ path
  | notInText kind => "cannot interpolate " ++ kind.name ++ " value into a string"
  | vanished path => "reference " ++ Alias.ofPath path ++ " vanished during resolution"
  | other message => message

end Cause

/-- What keeps a value from being made: a cause, which is collected, or a numeral, which ends the
work. -/
inductive Obstacle where
  | cause (c : Cause)
  | numeral (fault : NumeralFault)
  deriving Inhabited

/-- A problem with a reference of a token. -/
structure Problem where
  kind : ProblemKind
  path : String
  cause : Cause
  reference : Option String
  file : Option String
  deriving Inhabited

namespace Problem

def message (p : Problem) : String := p.cause.message

def location (p : Problem) : String :=
  match p.file with
  | none => p.path
  | some file => if file = "" then p.path else file ++ "#" ++ p.path

def text (p : Problem) : String := p.location ++ ": " ++ p.message

end Problem

namespace Pointer

/-- Follows a pointer from the root of a tree to a token.  The result is the place of the token, the
token itself and the segments that follow its value. -/
def walk (raw : String) (here : Place) : Node → List String →
    Except Cause (Place × Token × List String)
  | .token t, [] => .ok (here, t, [])
  | .token t, segment :: rest =>
    if segment = valueKey then .ok (here, t, rest) else .error (.pastToken raw segment)
  | .group _ _, [] => .error (.atGroup raw)
  | .group _ children, segment :: rest =>
    match Table.get? children segment with
    | none => .error (.noToken raw)
    | some n => walk raw (here ++ [segment]) n rest

def target (p : Pointer) (tree : Group) : Except Cause (Place × Token × List String) :=
  walk p.raw [] tree.toNode p.segments

/-- The part of a value below some segments: members of objects and places of lists. -/
def descend (raw : String) : Value → List String → Except NumeralFault (Except Cause Value)
  | v, [] => .ok (.ok v)
  | .object members, segment :: rest =>
    match Table.get? members segment with
    | some v => descend raw v rest
    | none => .ok (.error (.noValue raw))
  | .list items, segment :: rest =>
    match index segment with
    | .none => .ok (.error (.noValue raw))
    | .unreadable => .error (.unreadable segment)
    | .place n =>
      match items[n]? with
      | some v => descend raw v rest
      | none => .ok (.error (.noValue raw))
  | _, _ :: _ => .ok (.error (.noValue raw))

end Pointer

end DesignTokens

import DesignTokens.Text.Digit
import DesignTokens.Text.Parts
import DesignTokens.Value.Display
import DesignTokens.Value.Writable

/-! # Pointers

A pointer names a place in a token file by its keys, such as `colors.json#/brand/primary`.  The
file may be missing; inside a key a tilde is written `~0` and a slash `~1`.
-/

namespace DesignTokens

/-- A pointer: its own text, the file it names and the keys after the sign `#/`. -/
structure Pointer where
  raw : String
  file : Option String
  segments : List String
  deriving DecidableEq, Repr, Inhabited

/-- Why a value is not a pointer. -/
inductive PointerFault where
  | noFragment (ref : Value)
  | badFragment (ref : String)
  | emptySegment (ref : String)
  deriving Inhabited

namespace PointerFault

def message : PointerFault → String
  | noFragment ref => "Invalid $ref format: " ++ ref.shown
  | badFragment ref => "Invalid $ref fragment: " ++ Text.quoted ref
  | emptySegment ref => "Empty segment in $ref: " ++ Text.quoted ref

end PointerFault

namespace Pointer

/-- A key as it was before it was written into a pointer. -/
def unescape : List Char → List Char
  | '~' :: '1' :: rest => '/' :: unescape rest
  | '~' :: '0' :: rest => '~' :: unescape rest
  | c :: rest => c :: unescape rest
  | [] => []

/-- A key as it is written in a pointer. -/
def escape : List Char → List Char
  | [] => []
  | c :: rest =>
    if c = '~' then '~' :: '0' :: escape rest
    else if c = '/' then '~' :: '1' :: escape rest
    else c :: escape rest

theorem unescape_escape (key : List Char) : unescape (escape key) = key := by
  induction key with
  | nil => rfl
  | cons c rest ih =>
    by_cases h : c = '~'
    · simp [escape, h, unescape, ih]
    · by_cases hs : c = '/'
      · simp [escape, hs, unescape, ih]
      · simp [escape, h, hs, unescape, ih]

/-- The pointer that a text writes. -/
def parse (ref : String) : Except PointerFault Pointer :=
  match Text.cut '#' ref.toList with
  | (_, none) => .error (.noFragment (.text ref))
  | (file, some ('/' :: key :: keys)) =>
    let segments := (Text.splitOn '/' (key :: keys)).map unescape
    if segments.any List.isEmpty then .error (.emptySegment ref)
    else
      .ok { raw := ref
            file := if file.isEmpty then none else some (String.ofList file)
            segments := segments.map String.ofList }
  | _ => .error (.badFragment ref)

def ofValue : Value → Except PointerFault Pointer
  | .text ref => parse ref
  | ref => .error (.noFragment ref)

/-- The text of the pointer to a place. -/
def write (file : Option String) (segments : List String) : String :=
  file.getD "" ++ "#/" ++
    String.ofList (Text.joinOn '/' (segments.map fun s => escape s.toList))

/-- How a segment stands to the places of a list. -/
inductive Index where
  | none
  | place (n : Nat)
  | unreadable
  deriving DecidableEq, Repr

/-- The place in a list that a segment names. -/
def index (segment : String) : Index :=
  let cs := segment.toList
  if cs.isEmpty || !cs.all Text.isAnyDigit then .none
  else if cs.length > longestNumeral then .unreadable
  else
    match Text.decimalValue? cs with
    | some n => .place n
    | none => .unreadable

end Pointer

end DesignTokens

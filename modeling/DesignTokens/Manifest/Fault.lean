import DesignTokens.Text.Parts
import DesignTokens.Value.Display
import DesignTokens.Value.Writable

/-! # Faults of manifests and selections

A fault names the place in the manifest and says what is wrong there.
-/

namespace DesignTokens

/-- What a part of a manifest has to be. -/
inductive Shape where
  | object | list | nonEmptyList | text | texts | textOrTexts | filePaths | patterns | tokenSets
  | setKind
  deriving DecidableEq, Repr, Inhabited

namespace Shape

/-- The wording of a shape. -/
def name : Shape → String
  | object => "an object"
  | list => "a list"
  | nonEmptyList => "a non-empty list"
  | text => "a string"
  | texts => "a list of strings"
  | textOrTexts => "a string or a list of strings"
  | filePaths => "a list of file paths"
  | patterns => "a list of file patterns"
  | tokenSets => "a list of token sets"
  | setKind => "'enumerated' or 'include'"

end Shape

/-- Why a value is not the setting that it is meant to be. -/
inductive SettingFault where
  | notText
  | notTruthValue
  | unknownTruthValue
  | notInteger
  | fraction
  | unreadableInteger
  | hugeInteger
  | infinite
  | belowOne
  deriving DecidableEq, Repr, Inhabited

namespace SettingFault

/-- The wording of a fault of a setting. -/
def message : SettingFault → String
  | notText => "Input should be a valid string"
  | notTruthValue => "Input should be a valid boolean"
  | unknownTruthValue => "Input should be a valid boolean, unable to interpret input"
  | notInteger => "Input should be a valid integer"
  | fraction => "Input should be a valid integer, got a number with a fractional part"
  | unreadableInteger => "Input should be a valid integer, unable to parse string as an integer"
  | hugeInteger => "Unable to parse input string as an integer, exceeded maximum size"
  | infinite => "Input should be a finite number"
  | belowOne => "Input should be greater than or equal to 1"

end SettingFault

/-- What is wrong with a selection. -/
inductive SelectionFault where
  | notSingle
  | unknownOption (option : String)
  | notList
  | unknownItem (item : Value)
  | unknownModifier
  deriving Inhabited

/-- What a selection may hold. -/
inductive Expectation where
  | oneOf (options : List String)
  | listFrom (options : List String)
  deriving DecidableEq, Repr, Inhabited

/-- A rejected entry of a selection. -/
structure RejectedChoice where
  modifier : String
  fault : SelectionFault
  received : Value
  expected : Expectation
  deriving Inhabited

namespace RejectedChoice

/-- The values that the wording shows. -/
def shown (r : RejectedChoice) : List Value :=
  match r.fault with
  | .unknownItem item => [item, r.received]
  | _ => [r.received]

/-- The wording of what is wrong. -/
def message (r : RejectedChoice) : String :=
  match r.fault with
  | .notSingle => "oneOf modifier takes a single value"
  | .unknownOption option => "unknown option '" ++ option ++ "'"
  | .notList => "anyOf modifier takes a list"
  | .unknownItem item => "unknown option " ++ item.shown
  | .unknownModifier => "unknown modifier"

def expectedText (r : RejectedChoice) : String :=
  match r.expected with
  | .oneOf options => "one of " ++ Value.shownTexts options
  | .listFrom options => "a list drawn from " ++ Value.shownTexts options

def text (r : RejectedChoice) : String :=
  r.modifier ++ ": " ++ r.message ++ " (received " ++ r.received.shown ++ ", expected "
    ++ r.expectedText ++ ")"

end RejectedChoice

/-- What is wrong at a place of a manifest. -/
inductive Complaint where
  | notAManifest
  | mustBe (shape : Shape)
  | fieldMustBe (field : String) (shape : Shape)
  | missingField (field : String)
  | missingFiles
  | noSets
  | noOptions
  | notOneKind
  | undeclaredOption (option : String)
  | undeclaredValue (value : String)
  | notAmong (v : Value) (options : List String)
  | defaultOnAnyOf
  | unknownModifier (name : String)
  | unknownSource (name : Value)
  | duplicate (noun : String) (name : Value)
  | mustHave (noun what : String)
  | wrongFormat (format : String)
  | setting (fault : SettingFault)
  | selection (rejected : RejectedChoice)
  | other (message : String)
  deriving Inhabited

namespace Complaint

/-- The wording of a complaint. -/
def message : Complaint → String
  | notAManifest => "manifest must be an object"
  | mustBe shape => "must be " ++ shape.name
  | fieldMustBe field shape => "'" ++ field ++ "' must be " ++ shape.name
  | missingField field => "missing required '" ++ field ++ "'"
  | missingFiles => "missing 'values' file list"
  | noSets => "'sets' must declare at least one set"
  | noOptions => "must declare at least one option"
  | notOneKind => "must declare exactly one of 'oneOf' or 'anyOf'"
  | undeclaredOption option => "'" ++ option ++ "' is not a declared option"
  | undeclaredValue value => "'" ++ value ++ "' is not a declared value"
  | notAmong v options => "'" ++ v.plain ++ "' is not one of " ++ Value.shownTexts options
  | defaultOnAnyOf => "'default' is only allowed on oneOf modifiers"
  | unknownModifier name => "unknown modifier '" ++ name ++ "'"
  | unknownSource name => "unknown source '" ++ name.plain ++ "'"
  | duplicate noun name => "duplicate " ++ noun ++ " '" ++ name.plain ++ "'"
  | mustHave noun what => noun ++ " must have " ++ what
  | wrongFormat format => "data does not have the shape of a '" ++ format ++ "' manifest"
  | setting fault => fault.message
  | selection rejected => rejected.text
  | other message => message

/-- The values that the wording shows. -/
def shown : Complaint → List Value
  | notAmong v _ => [v]
  | unknownSource name => [name]
  | duplicate _ name => [name]
  | selection rejected => rejected.shown
  | _ => []

end Complaint

/-- A fault at a place of a manifest; the empty place is the manifest as a whole. -/
structure ManifestFault where
  place : String
  complaint : Complaint
  deriving Inhabited

namespace ManifestFault

def text (f : ManifestFault) : String :=
  if f.place = "" then f.complaint.message else f.place ++ ": " ++ f.complaint.message

/-- An integer without a numeral that the line would show. -/
def unwritable? (f : ManifestFault) : Option Int := f.complaint.shown.findSome? Value.unwritable?

end ManifestFault

end DesignTokens

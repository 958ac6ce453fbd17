import DesignTokens.FileSystem
import DesignTokens.Manifest.Basic
import DesignTokens.Manifest.Setting

/-! # Manifests of sets and modifiers

The plain form of a manifest: a list of `sets` and an object of `modifiers`, an optional `generate`
list and `options`.  All faults of the structure are collected before anything is built; then the
settings are read, and last the texts that describe the manifest.
-/

namespace DesignTokens

namespace Manifest

def invalidTitle : String := "Invalid manifest"

/-- A text that describes the manifest, with its fault. -/
def describingText (key : String) (v : Option Value) : Option String × List ManifestFault :=
  match Setting.optionalText v with
  | .ok text => (text, [])
  | .error fault => (none, [⟨key, .setting fault⟩])

/-- The manifest with the texts of the data that describe it and with a version. -/
def withDescription (m : Manifest) (data : Table String Value) (version : Option Value)
    (source : Option String) : Except Failure Manifest :=
  let (name, nameFaults) := describingText "name" (data.get? "name")
  let (description, descriptionFaults) := describingText "description" (data.get? "description")
  let (version, versionFaults) := describingText "version" version
  let faults := nameFaults ++ descriptionFaults ++ versionFaults
  if faults.isEmpty then .ok { m with name, description, version, source }
  else .error (.ofManifest invalidTitle faults source)

def itemPlace (list : String) (index : Nat) : String := list ++ "[" ++ toString index ++ "]"

end Manifest

namespace Upft

open Manifest (itemPlace)

def formatName : String := "upft"

def recognizes (data : Value) : Bool :=
  match data.member? "modifiers" with
  | some v => v.isObject
  | none => false

/-! ## Checks -/

def filesValue (raw : Table String Value) : Option Value :=
  match raw.get? "values" with
  | some v => some v
  | none => raw.get? "files"

def filesFaults (place : String) : Option Value → List ManifestFault
  | none => [⟨place, .missingFiles⟩]
  | some .null => [⟨place, .missingFiles⟩]
  | some v => if v.texts?.isSome then [] else [⟨place, .fieldMustBe "values" .filePaths⟩]

def nameFaults (place : String) : Option Value → List ManifestFault
  | none => []
  | some .null => []
  | some (.text _) => []
  | some _ => [⟨place, .fieldMustBe "name" .text⟩]

def setFaults (index : Nat) (raw : Value) : List ManifestFault :=
  let place := itemPlace "sets" index
  match raw with
  | .object members =>
    filesFaults place (filesValue members) ++ nameFaults place (Table.get? members "name")
  | _ => [⟨place, .mustBe .object⟩]

def optionFaults (place : String) (options : List String) (entry : String × Value) :
    List ManifestFault :=
  (if options.contains entry.1 then [] else [⟨place, .undeclaredOption entry.1⟩]) ++
  (if entry.2.texts?.isSome then []
    else [⟨place ++ "." ++ entry.1, .mustBe .filePaths⟩])

def valuesFaults (place : String) (options : List String) : Option Value → List ManifestFault
  | none => []
  | some (.object members) => members.flatMap (optionFaults place options)
  | some _ => [⟨place, .mustBe .object⟩]

def defaultFaults (place : String) (isOneOf : Bool) (options : List String) :
    Option Value → List ManifestFault
  | none => []
  | some v =>
    if isOneOf then
      if (v.text?.map options.contains).getD false then []
      else [⟨place ++ ".default", .notAmong v options⟩]
    else [⟨place, .defaultOnAnyOf⟩]

/-- The faults of a modifier whose options are known. -/
def kindFaults (place : String) (raw : Table String Value) (isOneOf : Bool) :
    List ManifestFault :=
  let key := if isOneOf then "oneOf" else "anyOf"
  match (raw.get? key).bind Value.texts? with
  | none => [⟨place ++ "." ++ key, .mustBe .texts⟩]
  | some options =>
    (if options.isEmpty then [⟨place ++ "." ++ key, .noOptions⟩] else []) ++
    valuesFaults (place ++ ".values") options (raw.get? "values") ++
    defaultFaults place isOneOf options (raw.get? "default")

def modifierFaults (entry : String × Value) : List ManifestFault :=
  let place := "modifiers." ++ entry.1
  match entry.2 with
  | .object members =>
    let raw : Table String Value := members
    if raw.has "oneOf" = raw.has "anyOf" then [⟨place, .notOneKind⟩]
    else kindFaults place raw (raw.has "oneOf")
  | _ => [⟨place, .mustBe .object⟩]

/-- The keys of a `generate` entry that are filters. -/
def filterKeys : List String :=
  ["includeSets", "excludeSets", "includeModifiers", "excludeModifiers"]

/-- The faults of a member of a `generate` entry. -/
def generateMemberFaults (place : String) (modifiers : Table String Value)
    (entry : String × Value) : List ManifestFault :=
  let (key, v) := entry
  if key = outputKey then
    if v.text?.isSome then [] else [⟨place ++ ".output", .mustBe .text⟩]
  else if filterKeys.contains key then
    if v.texts?.isSome then [] else [⟨place ++ "." ++ key, .mustBe .texts⟩]
  else if modifiers.has key then
    if (Choice.ofValue? v).isSome then [] else [⟨place ++ "." ++ key, .mustBe .textOrTexts⟩]
  else [⟨place, .unknownModifier key⟩]

def generateFaults (modifiers : Table String Value) (index : Nat) (raw : Value) :
    List ManifestFault :=
  let place := itemPlace "generate" index
  match raw with
  | .object members => members.flatMap (generateMemberFaults place modifiers)
  | _ => [⟨place, .mustBe .object⟩]

/-- A value, unless it is missing or null. -/
def present (v : Option Value) : Option Value :=
  match v with
  | some .null => none
  | other => other

def setsFaults : Option Value → List ManifestFault
  | none => [⟨"", .missingField "sets"⟩]
  | some (.list []) => [⟨"", .noSets⟩]
  | some (.list items) => (items.mapIdx setFaults).flatten
  | some _ => [⟨"", .fieldMustBe "sets" .list⟩]

/-- The modifiers as they stand, none if they have no members. -/
def rawModifiers (data : Table String Value) : Table String Value :=
  ((data.get? "modifiers").bind Value.members?).getD []

def modifiersFaults : Option Value → List ManifestFault
  | none => [⟨"", .missingField "modifiers"⟩]
  | some (.object members) => members.flatMap modifierFaults
  | some _ => [⟨"", .fieldMustBe "modifiers" .object⟩]

def generateListFaults (modifiers : Table String Value) : Option Value → List ManifestFault
  | none => []
  | some (.list items) => (items.mapIdx (generateFaults modifiers)).flatten
  | some _ => [⟨"", .fieldMustBe "generate" .list⟩]

def optionsFaults : Option Value → List ManifestFault
  | none => []
  | some (.object _) => []
  | some _ => [⟨"", .fieldMustBe "options" .object⟩]

/-- All faults of the structure. -/
def faults (data : Table String Value) : List ManifestFault :=
  setsFaults (present (data.get? "sets")) ++
  modifiersFaults (present (data.get? "modifiers")) ++
  generateListFaults (rawModifiers data) (present (data.get? "generate")) ++
  optionsFaults (data.get? "options")

/-! ## Building -/

def buildSet (raw : Value) : TokenSet :=
  let members := raw.members?.getD []
  { name := (members.get? "name").bind Value.text?
    files := ((filesValue members).bind Value.texts?).getD [] }

def buildValues (raw : Table String Value) : Table String (List String) :=
  (((raw.get? "values").bind Value.members?).getD []).map fun (option, v) =>
    (option, v.texts?.getD [])

def buildModifier (raw : Value) : Modifier :=
  let members := raw.members?.getD []
  match (members.get? "oneOf").bind Value.texts? with
  | some options =>
    .oneOf options (buildValues members) ((members.get? "default").bind Value.text?)
  | none =>
    .anyOf (((members.get? "anyOf").bind Value.texts?).getD []) (buildValues members)

def buildSpec (raw : Value) : GenerateSpec :=
  let members := raw.members?.getD []
  let texts := fun (key : String) => (members.get? key).bind Value.texts?
  { selections := members.filterMap fun (key, v) =>
      if key = outputKey ∨ filterKeys.contains key then none
      else (Choice.ofValue? v).map (key, ·)
    output := (members.get? outputKey).bind Value.text?
    includeSets := texts "includeSets"
    excludeSets := texts "excludeSets"
    includeModifiers := texts "includeModifiers"
    excludeModifiers := texts "excludeModifiers" }

/-- A setting of the options under the first of its names that is there. -/
def setting? {α : Type} (options : Table String Value) (names : List String)
    (read : Value → Except SettingFault α) (default : α) : α × List ManifestFault :=
  match names.find? fun name => options.has name with
  | none => (default, [])
  | some name =>
    match read ((options.get? name).getD .null) with
    | .ok a => (a, [])
    | .error fault => (default, [⟨name, .setting fault⟩])

/-- The greatest length of a chain of references unless the options say otherwise. -/
def defaultMaxDepth : Int := 10

def parse (data : Table String Value) (source : Option String) : Except Failure ParsedManifest :=
  match faults data with
  | first :: others => .error (.ofManifest Manifest.invalidTitle (first :: others) source)
  | [] =>
    let options := ((data.get? "options").bind Value.members?).getD []
    let (resolveReferences, truthFaults) :=
      setting? options ["resolveReferences", "resolve_references"] Setting.truthValue false
    let (maxDepth, depthFaults) :=
      setting? options ["maxDepth", "max_depth"] Setting.positiveInteger defaultMaxDepth
    match truthFaults ++ depthFaults with
    | first :: others => .error (.ofManifest Manifest.invalidTitle (first :: others) source)
    | [] =>
      let m : Manifest :=
        { name := none, description := none, version := none
          sets := (((data.get? "sets").bind Value.items?).getD []).map buildSet
          modifiers := (rawModifiers data).map fun (name, v) => (name, buildModifier v)
          generate := ((data.get? "generate").bind Value.items?).map fun items =>
            items.map buildSpec
          resolveReferences, maxDepth, source
          format := formatName
          inline := [] }
      (m.withDescription data (data.get? "version") source).map (⟨·, []⟩)

end Upft

end DesignTokens

import DesignTokens.FileSystem.Glob
import DesignTokens.Manifest.Upft

/-! # Theme manifests

A theme manifest names `sources`, each with patterns of files, and `themes`, each with conditions
and the sources that it needs.  Every condition key becomes a modifier whose options are the values
of the key; selecting one contributes the sources of every theme with that condition.  A source that
no theme names is a base set.
-/

namespace DesignTokens

namespace DtcgThemes

open Manifest (itemPlace)

def formatName : String := "dtcg-manifest"

def isSource (v : Value) : Bool :=
  ((v.member? "name").bind Value.text?).isSome && ((v.member? "include").bind Value.items?).isSome

def isTheme (v : Value) : Bool :=
  ((v.member? "id").bind Value.text?).isSome && ((v.member? "name").bind Value.text?).isSome &&
  ((v.member? "conditions").bind Value.members?).isSome &&
  ((v.member? "sources").bind Value.items?).isSome

/-- Whether data have the shape of the format. -/
def recognizes (data : Value) : Bool :=
  (match data.member? "sources" with
    | some (.list (first :: others)) => (first :: others).all isSource
    | _ => false) &&
  (match Value.firstStated [data.member? "themes"] with
    | none => true
    | some (.list items) => items.all isTheme
    | some _ => false)

/-! ## Patterns -/

/-- The files that a pattern stands for.  A plain path, an absolute pattern and a pattern that
matches nothing stand for themselves. -/
def expandPattern (fs : FileSystem) (base : Option FilePath) (pattern : String) :
    Except Failure (List String) :=
  match base with
  | none => .ok [pattern]
  | some base =>
    if pattern.toList.any Glob.isWild && !(FilePath.ofText pattern).isAbsolute then
      match Glob.parts? pattern with
      | none => .error (.badPattern pattern)
      | some parts =>
        match fs.glob base parts with
        | [] => .ok [pattern]
        | files => .ok files
    else .ok [pattern]

/-- The files that some patterns stand for. -/
def expandPatterns (fs : FileSystem) (base : Option FilePath) :
    List String → Except Failure (List String)
  | [] => .ok []
  | pattern :: patterns => do
    let files ← expandPattern fs base pattern
    let others ← expandPatterns fs base patterns
    return files ++ others

/-! ## Sources -/

/-- A declared source. -/
structure Source where
  name : Value
  patterns : Value
  deriving Inhabited

def Source.ofValue (v : Value) : Except Failure Source := do
  let name ← v.demandMember "name"
  let patterns ← v.demandMember "include"
  return ⟨name, patterns⟩

/-- What is known after some sources. -/
structure Inventory where
  faults : List ManifestFault
  files : Table String (List String)
  unnamed : List Value
  deriving Inhabited

namespace Inventory

def empty : Inventory := ⟨[], [], []⟩

def knows (d : Inventory) : Value → Except Failure Bool
  | .text name => .ok (d.files.has name)
  | .list items => .error (.misused (.list items) .name)
  | .object members => .error (.misused (.object members) .name)
  | v => .ok (d.unnamed.any v.same)

/-- Stores the files of a source under its name. -/
def put (d : Inventory) (name : Value) (files : List String) : Except Failure Inventory :=
  match name with
  | .text name => .ok { d with files := d.files.put name files }
  | .list items => .error (.misused (.list items) .name)
  | .object members => .error (.misused (.object members) .name)
  | v => .ok { d with unnamed := d.unnamed ++ [v] }

def withFaults (d : Inventory) (faults : List ManifestFault) : Inventory :=
  { d with faults := d.faults ++ faults }

end Inventory

/-- The faults of the name of a source. -/
def nameFaults (d : Inventory) (place : String) (name : Value) :
    Except Failure (List ManifestFault) :=
  if name.isVacant then .ok [⟨place ++ ".name", .mustHave "source" "a name"⟩]
  else
    (d.knows name).map fun known =>
      if known then [⟨place ++ ".name", .duplicate "source" name⟩] else []

def patternFaults (place : String) (patterns : Value) : List ManifestFault :=
  if patterns.isVacant then [⟨place ++ ".include", .mustHave "source" "a non-empty include list"⟩]
  else if patterns.texts?.isNone then [⟨place ++ ".include", .mustBe .patterns⟩]
  else []

/-- The patterns that a source has, unless they are of the wrong kind: a value without content has
no patterns. -/
def patternsOf (patterns : Value) : Except Failure (Option (List String)) :=
  if patterns.isVacant then patterns.demandItems.map fun _ => some []
  else .ok patterns.texts?

/-- What is known after one more source. -/
def readSource (fs : FileSystem) (base : Option FilePath) (d : Inventory) (place : String)
    (v : Value) : Except Failure Inventory := do
  let s ← Source.ofValue v
  let faults ← nameFaults d place s.name
  let d := d.withFaults (faults ++ patternFaults place s.patterns)
  match ← patternsOf s.patterns with
  | none => return d
  | some patterns => d.put s.name (← expandPatterns fs base patterns)

/-- What is known after the sources from an index on. -/
def readSources (fs : FileSystem) (base : Option FilePath) (d : Inventory) (index : Nat) :
    List Value → Except Failure Inventory
  | [] => .ok d
  | v :: items => do
    let d ← readSource fs base d (itemPlace "sources" index) v
    readSources fs base d (index + 1) items

/-! ## Themes -/

/-- A declared theme. -/
structure Theme where
  id : Value
  name : Value
  conditions : Table String Value
  sources : List Value
  deriving Inhabited

namespace Theme

def ofValue (v : Value) : Except Failure Theme := do
  let id ← v.demandMember "id"
  let name ← v.demandMember "name"
  let conditions ← (← v.demandMember "conditions").demandMembers
  let sources ← (← v.demandMember "sources").demandItems
  return ⟨id, name, conditions, sources⟩

def ofValues : List Value → Except Failure (List Theme)
  | [] => .ok []
  | v :: items => do
    let theme ← ofValue v
    let themes ← ofValues items
    return theme :: themes

def sourceNames (t : Theme) : List String := t.sources.filterMap Value.text?

def condition? (t : Theme) (key : String) : Option String :=
  (t.conditions.get? key).bind Value.text?

def faults (known : Table String (List String)) (place : String) (t : Theme) :
    List ManifestFault :=
  (if t.id.isVacant then [⟨place ++ ".id", .mustHave "theme" "an id"⟩] else []) ++
  (if t.name.isVacant then [⟨place ++ ".name", .mustHave "theme" "a name"⟩] else []) ++
  (if t.conditions.isEmpty then
      [⟨place ++ ".conditions", .mustHave "theme" "conditions"⟩]
    else []) ++
  (t.conditions.filterMap fun (key, v) =>
    if v.text?.isSome then none
    else some ⟨place ++ ".conditions." ++ key, .mustBe .text⟩) ++
  (if t.sources.isEmpty then
      [⟨place ++ ".sources", .mustHave "theme" "a non-empty sources list"⟩]
    else []) ++
  (t.sources.filterMap fun v =>
    if (v.text?.map known.has).getD false then none
    else some ⟨place ++ ".sources", .unknownSource v⟩)

end Theme

def outputFaults (place : String) : Value → List ManifestFault
  | .object members =>
    let lacks := fun (key : String) => (Value.firstStated [Table.get? members key]).isNone
    (if lacks "format" then [⟨place ++ ".format", .mustHave "output" "a format"⟩] else []) ++
    (if lacks "destination" then
        [⟨place ++ ".destination", .mustHave "output" "a destination"⟩]
      else [])
  | _ => [⟨place, .mustBe .object⟩]

def outputsFaults : Option Value → List ManifestFault
  | none => []
  | some (.list items) =>
    (items.mapIdx fun index v => outputFaults (itemPlace "outputs" index) v).flatten
  | some _ => [⟨"", .fieldMustBe "outputs" .list⟩]

/-! ## Modifiers -/

/-- The condition keys of themes in the order of first occurrence. -/
def conditionKeys (themes : List Theme) : List String :=
  (themes.flatMap fun t => t.conditions.keys).eraseDups

def conditionValues (themes : List Theme) (key : String) : List String :=
  (themes.filterMap fun t => t.condition? key).eraseDups

/-- The names of the sources of the themes with a condition, in the order of first mention. -/
def sourcesFor (themes : List Theme) (key value : String) : List String :=
  ((themes.filter fun t => t.condition? key = some value).flatMap Theme.sourceNames).eraseDups

/-- The files of the sources with some names. -/
def filesOf (sources : Table String (List String)) :
    List String → Except Failure (List String)
  | [] => .ok []
  | name :: names =>
    match sources.get? name with
    | none => .error (.missingMember name)
    | some files => (filesOf sources names).map (files ++ ·)

/-- The files of the values of a condition key. -/
def valueFiles (themes : List Theme) (sources : Table String (List String)) (key : String) :
    List String → Except Failure (Table String (List String))
  | [] => .ok []
  | value :: values => do
    let files ← filesOf sources (sourcesFor themes key value)
    let others ← valueFiles themes sources key values
    return (value, files) :: others

def conditionModifiers (themes : List Theme) (sources : Table String (List String)) :
    List String → Except Failure (Table String Modifier)
  | [] => .ok []
  | key :: keys => do
    let values := conditionValues themes key
    let files ← valueFiles themes sources key values
    let others ← conditionModifiers themes sources keys
    return (key, .oneOf values files none) :: others

/-- The sources that no theme names. -/
def baseSets (themes : List Theme) (sources : Table String (List String)) : List TokenSet :=
  let themed := themes.flatMap Theme.sourceNames
  (sources.filter fun s => !themed.contains s.1).map fun s => ⟨some s.1, s.2⟩

/-- The directory in which the patterns of a manifest begin. -/
def baseDirectory (source : Option String) : Option FilePath :=
  (Context.given source).map fun file => (FilePath.ofText file).parent

/-- The manifest of some sources and themes. -/
def build (data : Table String Value) (source : Option String) (themes : List Theme)
    (sources : Table String (List String)) : Except Failure Manifest := do
  let modifiers ← conditionModifiers themes sources (conditionKeys themes)
  let m : Manifest :=
    { name := none, description := none, version := none
      sets := baseSets themes sources
      modifiers, source
      generate := none
      resolveReferences := false
      maxDepth := Upft.defaultMaxDepth
      format := formatName
      inline := [] }
  m.withDescription data (data.get? "version") source

/-- Reads a manifest.  The data are taken to have the shape of the format. -/
def parse (fs : FileSystem) (data : Table String Value) (source : Option String) :
    Except Failure ParsedManifest := do
  let rawSources ← (← Value.demandMember (.object data) "sources").demandItems
  let known ← readSources fs (baseDirectory source) .empty 0 rawSources
  let rawThemes ←
    match Value.firstStated [data.get? "themes"] with
    | none => pure []
    | some v => v.demandItems
  let themes ← Theme.ofValues rawThemes
  let themeFaults :=
    (themes.mapIdx fun index t => t.faults known.files (itemPlace "themes" index)).flatten
  let faults :=
    known.faults ++ themeFaults ++ outputsFaults (Value.firstStated [data.get? "outputs"])
  match faults, known.unnamed with
  | [], [] => (build data source themes known.files).map (⟨·, []⟩)
  | [], name :: _ => throw (.unnamedSet name)
  | _, _ => throw (.ofManifest "Invalid DTCG manifest" faults source)

end DtcgThemes

end DesignTokens

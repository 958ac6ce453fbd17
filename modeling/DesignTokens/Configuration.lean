import DesignTokens.Failure
import DesignTokens.FileSystem
import DesignTokens.Reference.Resolution
import DesignTokens.Toml.Reader

/-! # Configuration

The settings for reading and resolving permutations, and the file that holds them.  A relative base
path is taken from the directory of that file; without one the base path is the directory itself.
-/

namespace DesignTokens

/-- The settings for reading and resolving permutations. -/
structure Configuration where
  basePath : String
  maxDepth : Int
  maxWorkers : Int
  /-- Whether references are resolved.  Without a word on it the manifest decides. -/
  resolveReferences : Option Bool
  cache : Bool
  deriving DecidableEq, Repr, Inhabited

namespace Configuration

/-- The settings that hold unless something else is asked for. -/
def standard : Configuration := ⟨".", Resolver.defaultMaxDepth, 4, none, true⟩

def fileName : String := "tokenweave.toml"

def sectionName : String := "resolver"

/-- A kind of setting: what messages call it, and how it is read. -/
structure Reading (α : Type) where
  name : String
  read? : Toml.Item → Option α

def textReading : Reading String where
  name := Value.Kind.text.name
  read?
    | .text s => some s
    | _ => none

def intReading : Reading Int where
  name := Value.Kind.int.name
  read?
    | .int n => some n
    | _ => none

def boolReading : Reading Bool where
  name := Value.Kind.bool.name
  read?
    | .bool b => some b
    | _ => none

def settingContext (file key : String) : Context :=
  ⟨some file, some (sectionName ++ "." ++ key), none⟩

/-- The value of a setting, if it is made. -/
def setting {α : Type} (file : String) (entries : Table String Toml.Item) (kind : Reading α)
    (key : String) : Except Failure (Option α) :=
  match entries.get? key with
  | none => .ok none
  | some item =>
    match kind.read? item with
    | some v => .ok (some v)
    | none =>
      .error (.config (.wrongType key kind.name item.kindName) (some (settingContext file key)))

/-- The value of a setting that is at least one. -/
def positiveSetting (file : String) (entries : Table String Toml.Item) (key : String) :
    Except Failure (Option Int) := do
  match ← setting file entries intReading key with
  | some n =>
    if n < 1 then throw (.config (.belowOne key) (some (settingContext file key)))
    else return some n
  | none => return none

def ofEntries (path : FilePath) (entries : Table String Toml.Item) :
    Except Failure Configuration := do
  let file := path.text
  let base ← setting file entries textReading "base_path"
  let maxDepth ← positiveSetting file entries "max_depth"
  let maxWorkers ← positiveSetting file entries "max_workers"
  let resolveReferences ← setting file entries boolReading "resolve_references"
  let cache ← setting file entries boolReading "cache"
  return {
    basePath := (path.parent.below (FilePath.ofText (base.getD ""))).text
    maxDepth := maxDepth.getD standard.maxDepth
    maxWorkers := maxWorkers.getD standard.maxWorkers
    resolveReferences
    cache := cache.getD standard.cache }

def load (fs : FileSystem) (path : FilePath) : Except Failure Configuration :=
  let context := some (Context.ofFile path.text)
  match fs.readText path with
  | .error .notUtf8 => .error (.notUtf8 path.text)
  | .error _ => .error (.config .unreadable context)
  | .ok text =>
    match Toml.read? text with
    | none => .error (.config .unreadable context)
    | some document =>
      match document.get? sectionName with
      | none => ofEntries path []
      | some (.table entries) => ofEntries path entries
      | some _ => .error (.config .notATable context)

/-- The directories of a list of names: all of them, then one name less at a time. -/
def upward (parts : List String) : List (List String) :=
  (List.range (parts.length + 1)).reverse.map parts.take

/-- The file with settings in a directory or in the nearest one above it. -/
def find? (fs : FileSystem) (start : FilePath) : Option FilePath :=
  ((upward (fs.absolute start)).map fun parts => ⟨1, parts ++ [fileName]⟩).find? fs.isFile

end Configuration

end DesignTokens

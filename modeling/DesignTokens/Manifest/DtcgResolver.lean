import DesignTokens.Manifest.Upft

/-! # Resolver manifests

A resolver manifest has a `version`, a list of `sets` and a list of `modifiers`.  A set names a
source file or holds its tokens itself; such tokens get a made-up path.  An `enumerated` modifier
selects one of its values, an `include` modifier may be left out.  Faults, warnings and the tokens
that are found inside are collected in a `Draft`.
-/

namespace DesignTokens

/-- What is worth a warning in a set. -/
inductive SetWarning where
  | sourceTakesPrecedence (place : String)
  | namespaceIgnored (place : String) (name : Value)
  deriving Inhabited

namespace SetWarning

def text : SetWarning → String
  | sourceTakesPrecedence place =>
    place ++ ": has both 'source' and 'tokens'; 'source' takes precedence"
  | namespaceIgnored place name =>
    place ++ ": namespace " ++ name.shown ++ " is not applied to its tokens"

/-- An integer without a numeral that the line would show. -/
def unwritable? : SetWarning → Option Int
  | sourceTakesPrecedence _ => none
  | namespaceIgnored _ name => name.unwritable?

end SetWarning

/-- What is collected while a manifest is read. -/
structure Draft where
  faults : List ManifestFault
  warnings : List SetWarning
  inline : Table String Value
  deriving Inhabited

namespace Draft

def empty : Draft := ⟨[], [], []⟩

def fault (d : Draft) (place : String) (complaint : Complaint) : Draft :=
  { d with faults := d.faults ++ [⟨place, complaint⟩] }

def warn (d : Draft) (warning : SetWarning) : Draft :=
  { d with warnings := d.warnings ++ [warning] }

/-- Tokens under a made-up path. -/
def putInline (d : Draft) (path : String) (tokens : Value) : Draft :=
  { d with inline := d.inline.put path tokens }

end Draft

namespace DtcgResolver

open Manifest (itemPlace)

def formatName : String := "dtcg"

/-- The option of a modifier that may be left out. -/
def includeOption : String := "include"

def inlineSuffix : String := ".virtual.json"

def isKnownModifier (v : Value) : Bool :=
  v.isObject &&
    ((v.member? "type").bind Value.text? = some "enumerated" ||
      (v.member? "type").bind Value.text? = some "include")

/-- Whether data have the shape of the format. -/
def recognizes (data : Value) : Bool :=
  ((data.member? "version").bind Value.text?).isSome &&
  (match data.member? "sets" with
    | some (.list (first :: others)) => (first :: others).all Value.isObject
    | _ => false) &&
  (match Value.firstStated [data.member? "modifiers"] with
    | none => true
    | some (.list items) => items.all isKnownModifier
    | some _ => false)

def setWarnings (place : String) (raw : Table String Value) (source : Option String)
    (tokens : Option Value) : List SetWarning :=
  (if source.isSome && tokens.isSome then [.sourceTakesPrecedence place] else []) ++
  ((Upft.present (raw.get? "namespace")).map (.namespaceIgnored place)).toList

/-- The files of a set whose parts have the right shape. -/
def readSet (d : Draft) (madeUp place : String) (raw : Table String Value)
    (source : Option String) (tokens : Option Value) : Draft × List String :=
  let d := (setWarnings place raw source tokens).foldl Draft.warn d
  match source, tokens with
  | some file, _ => (d, [file])
  | none, some v =>
    let path := madeUp ++ inlineSuffix
    (d.putInline path v, [path])
  | none, none =>
    (d.fault place (.mustHave "token set" "either 'source' or 'tokens'"), [])

def setFiles (d : Draft) (madeUp place : String) : Value → Draft × List String
  | .object members =>
    let raw : Table String Value := members
    let source := Upft.present (raw.get? "source")
    let tokens := Upft.present (raw.get? "tokens")
    if (source.map fun v => v.text?.isNone).getD false then
      (d.fault (place ++ ".source") (.mustBe .text), [])
    else if (tokens.map fun v => !v.isObject).getD false then
      (d.fault (place ++ ".tokens") (.mustBe .object), [])
    else readSet d madeUp place raw (Context.given (source.bind Value.text?)) tokens
  | _ => (d.fault place (.mustBe .object), [])

/-- The files of the sets of a list from an index on. -/
def itemFiles (d : Draft) (madeUp place : String) (index : Nat) :
    List Value → Draft × List String
  | [] => (d, [])
  | raw :: items =>
    let (d, files) :=
      setFiles d (madeUp ++ "-" ++ toString index) (itemPlace place index) raw
    let (d, others) := itemFiles d madeUp place (index + 1) items
    (d, files ++ others)

def listFiles (d : Draft) (madeUp place : String) : Value → Draft × List String
  | .list items => itemFiles d madeUp place 0 items
  | _ => (d.fault place (.mustBe .tokenSets), [])

/-- The files of the values of an `enumerated` modifier. -/
def valueFiles (d : Draft) (name place : String) (values : List String) :
    List (String × Value) → Draft × Table String (List String)
  | [] => (d, [])
  | (value, sets) :: members =>
    if values.contains value then
      let (d, files) := listFiles d (name ++ "-" ++ value) (place ++ "." ++ value) sets
      let (d, others) := valueFiles d name place values members
      (d, (value, files) :: others)
    else valueFiles (d.fault place (.undeclaredValue value)) name place values members

def enumerated (d : Draft) (name place : String) (raw : Table String Value) :
    Draft × Option Modifier :=
  match (raw.get? "values").bind Value.texts? with
  | none | some [] =>
    (d.fault (place ++ ".values") (.mustHave "enumerated modifier" "values"), none)
  | some values =>
    match (raw.get? "sets").getD (.object []) with
    | .object members =>
      let (d, files) := valueFiles d name (place ++ ".sets") values members
      (d, some (.oneOf values files none))
    | _ => (d.fault (place ++ ".sets") (.mustBe .object), none)

/-- A modifier that may be left out. -/
def optional (d : Draft) (name place : String) (raw : Table String Value) :
    Draft × Option Modifier :=
  let (d, files) :=
    listFiles d (name ++ "-" ++ includeOption) (place ++ ".include")
      ((raw.get? "include").getD (.list []))
  (d, some (.anyOf [includeOption] [(includeOption, files)]))

/-- A modifier that has a new name. -/
def namedModifier (d : Draft) (name place : String) (raw : Table String Value) :
    Draft × Option Modifier :=
  match (raw.get? "type").bind Value.text? with
  | some "enumerated" => enumerated d name place raw
  | some "include" => optional d name place raw
  | _ => (d.fault (place ++ ".type") (.mustBe .setKind), none)

def addModifier (d : Draft) (known : Table String Modifier) (place : String) :
    Value → Draft × Table String Modifier
  | .object members =>
    let raw : Table String Value := members
    match Context.given ((raw.get? "name").bind Value.text?) with
    | none => (d.fault (place ++ ".name") (.mustHave "modifier" "a name"), known)
    | some name =>
      if known.has name then
        (d.fault (place ++ ".name") (.duplicate "modifier" (.text name)), known)
      else
        match namedModifier d name place raw with
        | (d, some m) => (d, known.put name m)
        | (d, none) => (d, known)
  | _ => (d.fault place (.mustBe .object), known)

/-- The modifiers of a list from an index on. -/
def addModifiers (d : Draft) (known : Table String Modifier) (index : Nat) :
    List Value → Draft × Table String Modifier
  | [] => (d, known)
  | raw :: items =>
    let (d, known) := addModifier d known (itemPlace "modifiers" index) raw
    addModifiers d known (index + 1) items

/-- The base sets from an index on. -/
def addSets (d : Draft) (index : Nat) : List Value → Draft × List TokenSet
  | [] => (d, [])
  | raw :: items =>
    let name := "set-" ++ toString index
    let (d, files) := setFiles d name (itemPlace "sets" index) raw
    let (d, others) := addSets d (index + 1) items
    (d, ⟨some name, files⟩ :: others)

/-- The manifest with what was collected for it. -/
def conclude (d : Draft) (data : Table String Value) (source : Option String)
    (sets : List TokenSet) (modifiers : Table String Modifier) : Except Failure ParsedManifest :=
  if d.faults.isEmpty then
    let m : Manifest :=
      { name := none, description := none, version := none
        sets, modifiers, source
        generate := none
        resolveReferences := false
        maxDepth := Upft.defaultMaxDepth
        format := formatName
        inline := d.inline }
    (Value.demandMember (.object data) "version").bind fun version =>
      (m.withDescription data (some version) source).map (⟨·, d.warnings.map SetWarning.text⟩)
  else .error (.ofManifest "Invalid DTCG resolver manifest" d.faults source)

def parse (data : Table String Value) (source : Option String) : Except Failure ParsedManifest :=
  let d := Draft.empty
  let d :=
    if ((data.get? "version").bind Value.text?).isSome then d
    else d.fault "" (.missingField "version")
  let (d, sets) :=
    match data.get? "sets" with
    | some (.list (first :: others)) => addSets d 0 (first :: others)
    | _ => (d.fault "" (.fieldMustBe "sets" .nonEmptyList), [])
  let (d, modifiers) :=
    match Value.firstStated [data.get? "modifiers"] with
    | none => (d, [])
    | some (.list items) => addModifiers d [] 0 items
    | some _ => (d.fault "" (.fieldMustBe "modifiers" .list), [])
  match d.warnings.findSome? SetWarning.unwritable? with
  | some n => .error (.numeral (.unwritable n))
  | none => conclude d data source sets modifiers

end DtcgResolver

end DesignTokens

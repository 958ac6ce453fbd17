import DesignTokens.Value.Demand

/-! # Manifests

A manifest declares base sets of token files, which are always merged first, and modifiers.  A
`oneOf` modifier selects exactly one of its options, an `anyOf` modifier any part of them; each
option contributes files.  The `generate` list names the selections to produce.
-/

namespace DesignTokens

/-- Token files that belong together. -/
structure TokenSet where
  name : Option String
  files : List String
  deriving DecidableEq, Repr, Inhabited

/-- A choice among options. -/
inductive Modifier where
  | oneOf (options : List String) (values : Table String (List String)) (default : Option String)
  | anyOf (options : List String) (values : Table String (List String))
  deriving Inhabited

/-- What is chosen for a modifier: one option or a list of options. -/
inductive Choice where
  | one (option : String)
  | many (options : List String)
  deriving DecidableEq, Repr, Inhabited

namespace Choice

def toValue : Choice → Value
  | one option => .text option
  | many options => .list (options.map .text)

def ofValue? : Value → Option Choice
  | .text s => some (one s)
  | v => v.texts?.map many

end Choice

/-- What is selected for each modifier.  A modifier that is missing or null takes its default. -/
abbrev Selection := Table String Value

namespace Selection

/-- The choice for a modifier, unless it is missing or null. -/
def choice? (s : Selection) (name : String) : Option Value :=
  match Table.get? s name with
  | some .null => none
  | found => found

end Selection

/-- The key of a selection that names the file to write. -/
def outputKey : String := "output"

/-- The rule that matches everything. -/
def wildcard : String := "*"

namespace Modifier

def options : Modifier → List String
  | oneOf options _ _ => options
  | anyOf options _ => options

def values : Modifier → Table String (List String)
  | oneOf _ values _ => values
  | anyOf _ values => values

def filesOf (m : Modifier) (option : String) : List String := (m.values.get? option).getD []

def filesOfChoice (m : Modifier) : Choice → List String
  | .one option => m.filesOf option
  | .many options => options.flatMap m.filesOf

/-- What is selected unless something else is asked for: of a `oneOf` modifier the option that is
declared, or else the first one, which it need not have. -/
def defaultChoice : Modifier → Except Failure Choice
  | oneOf _ _ (some option) => .ok (.one option)
  | oneOf (option :: _) _ none => .ok (.one option)
  | oneOf [] _ none => .error .noOption
  | anyOf _ _ => .ok (.many [])

/-- The files of an item of a list of options.  A list or an object can be no option; anything else
that is no text is the name of no option. -/
def filesOfItem (m : Modifier) : Value → Except Failure (List String)
  | .text option => .ok (m.filesOf option)
  | .list items => .error (.misused (.list items) .name)
  | .object members => .error (.misused (.object members) .name)
  | _ => .ok []

/-- The files of some items of a list of options. -/
def filesOfItems (m : Modifier) : List Value → Except Failure (List String)
  | [] => .ok []
  | v :: items => do
    let first ← m.filesOfItem v
    let others ← m.filesOfItems items
    return first ++ others

/-- The files that a modifier contributes when a value is selected.  A value that says nothing
selects the default. -/
def filesFor (m : Modifier) (selected : Option Value) : Except Failure (List String) :=
  match Value.firstStated [selected], m with
  | none, m => m.defaultChoice.map m.filesOfChoice
  | some v, oneOf _ _ _ => m.filesOfItem v
  | some v, anyOf _ _ => v.demandItems.bind m.filesOfItems

end Modifier

/-- An entry of the `generate` list: a selection, the file to write and filters. -/
structure GenerateSpec where
  selections : Table String Choice
  output : Option String
  includeSets : Option (List String)
  excludeSets : Option (List String)
  includeModifiers : Option (List String)
  excludeModifiers : Option (List String)
  deriving Repr, Inhabited

/-- A manifest. -/
structure Manifest where
  name : Option String
  description : Option String
  version : Option String
  sets : List TokenSet
  modifiers : Table String Modifier
  generate : Option (List GenerateSpec)
  resolveReferences : Bool
  maxDepth : Int
  source : Option String
  format : String
  /-- Token documents that the manifest holds itself, by made-up paths. -/
  inline : Table String Value
  deriving Inhabited

/-- A manifest with what is worth a warning. -/
structure ParsedManifest where
  manifest : Manifest
  warnings : List String
  deriving Inhabited

end DesignTokens

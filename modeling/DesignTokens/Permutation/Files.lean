import DesignTokens.Manifest.Basic

/-! # The files of a permutation

The files of the base sets come first, then those of the modifiers in the order of declaration.  A
`generate` entry may filter both; what is excluded stays out even if it is included as well.
-/

namespace DesignTokens

namespace GenerateSpec

def empty : GenerateSpec := ⟨[], none, none, none, none, none⟩

def filtersSets (spec : GenerateSpec) : Bool := spec.includeSets.isSome || spec.excludeSets.isSome

def covers (names : List String) (name : String) : Bool :=
  names.contains name || names.contains wildcard

/-- Whether an entry keeps a set.  Where sets are filtered, one without a name is left out. -/
def keepsSet (spec : GenerateSpec) (set : TokenSet) : Bool :=
  if spec.filtersSets then
    match set.name with
    | none => false
    | some name =>
      if covers (spec.excludeSets.getD []) name then false
      else
        match spec.includeSets with
        | some names => covers names name
        | none => true
  else true

/-- The name that a rule is about: what stands before its first colon. -/
def ruleName (rule : String) : String := String.ofList (Text.cut ':' rule.toList).1

/-- The option that a rule asks for: what follows its first colon. -/
def ruleOption (rule : String) : String :=
  String.ofList ((Text.cut ':' rule.toList).2.getD [])

def ruleMatches (rule name : String) : Bool := rule = wildcard || ruleName rule = name

/-- Whether an entry keeps a modifier. -/
def keepsModifier (spec : GenerateSpec) (name : String) : Bool :=
  if (spec.excludeModifiers.getD []).any fun rule => ruleMatches rule name then false
  else
    match spec.includeModifiers with
    | some rules => rules.any fun rule => ruleMatches rule name
    | none => true

end GenerateSpec

namespace Manifest

/-- The files of some modifiers. -/
def modifierFiles (spec : GenerateSpec) (s : Selection) :
    List (String × Modifier) → Except Failure (List String)
  | [] => .ok []
  | (name, modifier) :: modifiers => do
    let first ←
      if spec.keepsModifier name then modifier.filesFor (Table.get? s name) else .ok []
    let others ← modifierFiles spec s modifiers
    return first ++ others

def files (m : Manifest) (s : Selection) (spec : GenerateSpec) : Except Failure (List String) :=
  let base := (m.sets.filter spec.keepsSet).flatMap TokenSet.files
  (modifierFiles spec s m.modifiers).map (base ++ ·)

end Manifest

end DesignTokens

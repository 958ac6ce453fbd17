import DesignTokens.Permutation.Files

/-! # Enumeration

Every manifest has finitely many selections: one option of each `oneOf` modifier and a part of the
options of each `anyOf` modifier.  A `generate` entry is fanned out over the `oneOf` modifiers that
it includes without asking for an option.
-/

namespace DesignTokens

/-- Every sublist, the empty one first; each item doubles the lists before it. -/
def subsets {α : Type} (items : List α) : List (List α) :=
  items.foldl (fun found item => found ++ found.map (· ++ [item])) [[]]

/-- Every way to take one item of each list, the first list varying slowest. -/
def choices {α : Type} : List (List α) → List (List α)
  | [] => [[]]
  | items :: rest => items.flatMap fun item => (choices rest).map (item :: ·)

namespace Modifier

def allChoices : Modifier → List Choice
  | oneOf options _ _ => options.map .one
  | anyOf options _ => (subsets options).map .many

def choiceCount : Modifier → Nat
  | oneOf options _ _ => options.length
  | anyOf options _ => Nat.pow 2 options.length

end Modifier

namespace Manifest

/-- Every selection of a manifest, the first modifier varying slowest. -/
def allSelections (m : Manifest) : List Selection :=
  (choices (m.modifiers.map fun entry => entry.2.allChoices)).map fun combination =>
    m.modifiers.keys.zip (combination.map Choice.toValue)

def selectionCount (m : Manifest) : Nat :=
  (m.modifiers.map fun entry => entry.2.choiceCount).foldl (· * ·) 1

/-- What an entry chooses for a modifier: the wildcard is every option of an `anyOf` modifier. -/
def chosen (modifier : Modifier) (choice : Choice) : Choice :=
  match modifier, choice with
  | .anyOf options _, .one option => if option = wildcard then .many options else choice
  | _, _ => choice

/-- The selection of an entry.  A rule that includes a modifier with an option selects it. -/
def selectionOf (m : Manifest) (spec : GenerateSpec) : Selection :=
  let declared : Selection := spec.selections.filterMap fun (name, choice) =>
    (m.modifiers.get? name).map fun modifier => (name, (chosen modifier choice).toValue)
  (spec.includeModifiers.getD []).foldl
    (fun (s : Selection) rule =>
      let name := GenerateSpec.ruleName rule
      let option := GenerateSpec.ruleOption rule
      if name = "" ∨ option = "" then s else Table.put s name (.text option))
    declared

/-- Whether a rule of an entry fans it out: it names a `oneOf` modifier, asks for no option, and the
entry does not choose one either. -/
def fansOut (m : Manifest) (spec : GenerateSpec) (rule : String) : Bool :=
  !rule.toList.contains ':' &&
  (match spec.selections.get? rule with
    | some (.one _) => false
    | _ => true) &&
  (match m.modifiers.get? rule with
    | some (.oneOf _ _ _) => true
    | _ => false)

/-- The modifiers over which an entry is fanned out. -/
def fanned (m : Manifest) (spec : GenerateSpec) : List String :=
  (spec.includeModifiers.getD []).filter (m.fansOut spec)

end Manifest

namespace GenerateSpec

def defaultOutput : String := "output"

/-- A file name without the ending of its last part: the last dot and what follows it. -/
def withoutEnding (name : String) : String :=
  let reversed := name.toList.reverse
  let ending := reversed.takeWhile fun c => c != '.' && c != '/'
  match ending, reversed.drop ending.length with
  | _ :: _, '.' :: rest => String.ofList rest.reverse
  | _, _ => name

/-- The name of the file to write for a combination of options. -/
def outputName (spec : GenerateSpec) (combination : Table String String) : String :=
  let base := withoutEnding ((Context.given spec.output).getD defaultOutput)
  if combination.isEmpty then base ++ ".json"
  else base ++ "-" ++ Text.joinWith "-" combination.values ++ ".json"

def choosing (spec : GenerateSpec) (combination : Table String String) : GenerateSpec :=
  { spec with
    selections := combination.foldl (fun t p => t.put p.1 (.one p.2)) spec.selections }

end GenerateSpec

namespace Manifest

/-- The entries into which an entry is fanned out, each with the file to write. -/
def fanOut (m : Manifest) (spec : GenerateSpec) : List (GenerateSpec × String) :=
  match m.fanned spec with
  | [] => [(spec, spec.outputName [])]
  | names =>
    let options := names.map fun name => ((m.modifiers.get? name).map Modifier.options).getD []
    (choices options).map fun combination =>
      let table : Table String String := Table.ofPairs (names.zip combination)
      (spec.choosing table, spec.outputName table)

/-- A selection to resolve, with the entry that it comes from and the file to write. -/
structure Job where
  selection : Selection
  spec : Option GenerateSpec
  output : Option String
  deriving Inhabited

/-- The selections that a manifest asks for: those of its `generate` list, or all. -/
def jobs (m : Manifest) : List Job :=
  match m.generate with
  | none => m.allSelections.map fun s => ⟨s, none, none⟩
  | some entries =>
    (entries.flatMap m.fanOut).map fun (spec, output) =>
      ⟨m.selectionOf spec, some spec, some output⟩

end Manifest

end DesignTokens

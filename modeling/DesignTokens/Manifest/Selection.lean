import DesignTokens.Manifest.Basic

/-! # Selections

A selection is checked against a manifest as a whole: every entry that does not fit is reported.
`normalize` gives every modifier a choice, the default one where none was made.
-/

namespace DesignTokens

namespace Manifest

/-- The rejected parts of the choice for a modifier. -/
def rejectedChoices (name : String) (m : Modifier) (v : Value) : List RejectedChoice :=
  match m with
  | .oneOf options _ _ =>
    match v with
    | .text option =>
      if options.contains option then [] else [⟨name, .unknownOption option, v, .oneOf options⟩]
    | _ => [⟨name, .notSingle, v, .oneOf options⟩]
  | .anyOf options _ =>
    match v with
    | .list items =>
      (items.filter fun item => !(item.text?.map options.contains).getD false).map fun item =>
        ⟨name, .unknownItem item, v, .listFrom options⟩
    | _ => [⟨name, .notList, v, .listFrom options⟩]

/-- The rejected entries of a selection: first those of the modifiers in their order, then the
names that no modifier has. -/
def validate (m : Manifest) (s : Selection) : List RejectedChoice :=
  (m.modifiers.flatMap fun (name, modifier) =>
    match s.choice? name with
    | some v => rejectedChoices name modifier v
    | none => []) ++
  (s.filter fun entry => entry.1 ≠ outputKey && !m.modifiers.has entry.1).map fun (name, v) =>
    ⟨name, .unknownModifier, v, .oneOf m.modifiers.keys⟩

/-- The choice for a modifier: the one that was made, or else the default. -/
def completed (s : Selection) (name : String) (m : Modifier) : Except Failure Value :=
  match s.choice? name with
  | some v => .ok v
  | none => m.defaultChoice.map Choice.toValue

/-- The choice for every modifier. -/
def normalize (m : Manifest) (s : Selection) : Except Failure Selection :=
  m.modifiers.mapM fun (name, modifier) => do
    let v ← completed s name modifier
    return (name, v)

end Manifest

end DesignTokens

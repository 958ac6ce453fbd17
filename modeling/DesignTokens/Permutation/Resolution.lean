import DesignTokens.Configuration
import DesignTokens.Manifest.Selection
import DesignTokens.Permutation.Enumeration
import DesignTokens.Reading.Shelf

/-! # Resolving permutations

A permutation is what one selection produces: the files that it implies are read and merged in
order, and the references in the result are replaced if the configuration or the manifest asks for
it.
-/

namespace DesignTokens

/-- The tokens of one selection. -/
structure Permutation where
  id : String
  input : Selection
  files : List String
  tokens : Value
  resolvedTokens : Option Value
  output : Option String
  deriving Inhabited

namespace Permutation

/-- The tokens with their references replaced if that was done, else as they were merged. -/
def document (p : Permutation) : Value := p.resolvedTokens.getD p.tokens

/-! ## Names of selections -/

/-- The part of a name that stands for one entry of a selection. -/
def idPart? (name : String) (v : Value) : Except Failure (Option String) :=
  match v with
  | .list items =>
    if items.isEmpty then .ok none
    else
      match v.texts? with
      | some texts => .ok (some (name ++ "-" ++ Text.joinWith "+" texts))
      | none => .error (.notTexts v)
  | _ => .ok (if v.isVacant then none else some (name ++ "-" ++ v.plain))

/-- The parts of the name of a selection. -/
def idParts : List (String × Value) → Except Failure (List String)
  | [] => .ok []
  | (name, v) :: entries => do
    let part ← if name = outputKey then pure none else idPart? name v
    let parts ← idParts entries
    return part.toList ++ parts

def defaultId : String := "default"

/-- The name of a selection: its entries in their order. -/
def idOf (s : Selection) : Except Failure String :=
  (idParts s).map fun parts => if parts.isEmpty then defaultId else Text.joinWith "_" parts

/-! ## Loading -/

/-- The files that are listed more than once, in order of their names. -/
def repeated (files : List String) : List String :=
  ((files.filter fun file => files.count file > 1).eraseDups).mergeSort fun a b => !decide (b < a)

def loadWarnings (files : List String) : List String :=
  match repeated files with
  | [] => []
  | names =>
    ["Files listed more than once will be merged again: " ++ Value.shownTexts names]

/-- Reads files and merges them from the first to the last. -/
def load {σ : Type} (read : DocumentReader σ) (files : List String) :
    ExceptT Failure (StateM σ) Value := do
  let documents ← files.mapM read
  (Merge.all documents).mapError Failure.ofMerge

def dereferenced (tokens : Value) (maxDepth : Int) (id : String) : Except Failure Value :=
  match Group.resolveDocument tokens maxDepth with
  | .error fault => .error (.numeral fault)
  | .ok (document, []) => .ok document
  | .ok (_, problems) => .error (.ofProblems "Reference resolution failed" problems (some id))

end Permutation

namespace Manifest

/-- The length of a chain of aliases that is allowed. -/
def depthLimit (m : Manifest) (config : Option Configuration) : Int :=
  (config.map Configuration.maxDepth).getD m.maxDepth

def wantsReferences (m : Manifest) (config : Option Configuration) : Bool :=
  (config.bind Configuration.resolveReferences).getD m.resolveReferences

/-- Resolves one selection. -/
def resolve {σ : Type} (m : Manifest) (read : DocumentReader σ) (config : Option Configuration)
    (s : Selection) (spec : GenerateSpec) : ExceptT Failure (StateM σ) Permutation := do
  match m.validate s with
  | [] =>
    let id ← Permutation.idOf s
    let files ← m.files s spec
    let tokens ← Permutation.load (read.behind m.inline) files
    let resolvedTokens ←
      if m.wantsReferences config then
        (Permutation.dereferenced tokens (m.depthLimit config) id).map some
      else pure none
    return {
      id, input := s, files, tokens, resolvedTokens
      output := (Table.get? s outputKey).bind Value.text? }
  | rejected =>
    throw (.ofManifest "Invalid input" (rejected.map fun r => ⟨"", .selection r⟩) m.source)

/-- Resolves one of the selections that a manifest asks for. -/
def resolveJob {σ : Type} (m : Manifest) (read : DocumentReader σ) (config : Option Configuration)
    (job : Job) : ExceptT Failure (StateM σ) Permutation := do
  let p ← m.resolve read config job.selection (job.spec.getD .empty)
  return { p with output := job.output.or p.output }

def resolveAll {σ : Type} (m : Manifest) (read : DocumentReader σ)
    (config : Option Configuration) : ExceptT Failure (StateM σ) (List Permutation) :=
  m.jobs.mapM (m.resolveJob read config)

end Manifest

end DesignTokens

import DesignTokens.CommandLine.Options
import DesignTokens.FilePath

/-! # Requests

What a command line asks for.  Arguments that ask for nothing are a usage error.
-/

namespace DesignTokens.CommandLine

/-- What is to be resolved: everything, or what pairs of names and values select. -/
structure ResolveRequest where
  manifest : FilePath
  format : Option String
  configuration : Option FilePath
  pairs : List String
  all : Bool
  directory : Option FilePath
  references : Option Bool
  deriving Repr, Inhabited

/-- What a command line asks for. -/
inductive Request where
  | version
  | list (manifest : FilePath) (format : Option String)
  | resolve (request : ResolveRequest)
  | cycles (file : FilePath)
  | merge (files : List FilePath) (target : Option FilePath)
  deriving Repr, Inhabited

/-- What options mean. -/
inductive Meaning where
  | version
  | verbose
  | configuration
  | format
  | modifier
  | all
  | output
  | resolve
  | keep
  deriving DecidableEq, Repr, Inhabited

def generalRules : List (OptionRule Meaning) :=
  [⟨.version, ["--version"], false⟩, ⟨.verbose, ["--verbose", "-v"], false⟩,
   ⟨.configuration, ["--config", "-c"], true⟩]

def formatRule : OptionRule Meaning := ⟨.format, ["--format", "-f"], true⟩

def outputRule : OptionRule Meaning := ⟨.output, ["--output", "-o"], true⟩

def resolveRules : List (OptionRule Meaning) :=
  [⟨.modifier, ["--modifier", "-m"], true⟩, ⟨.all, ["--all"], false⟩, outputRule,
   ⟨.resolve, ["--resolve"], false⟩, ⟨.keep, ["--no-resolve"], false⟩, formatRule]

/-- Whether references are to be resolved: the last word counts. -/
def referencesOf (given : Given Meaning) : Option Bool :=
  (given.options.filterMap fun option =>
    match option.meaning with
    | .resolve => some true
    | .keep => some false
    | _ => none).getLast?

/-- What a command with its arguments asks for. -/
def requestOf? (configuration : Option FilePath) (command : String) (arguments : List String) :
    Option Request :=
  match command with
  | "list" =>
    (given? [formatRule] true arguments).bind fun given =>
      match given.operands with
      | [manifest] => some (.list (FilePath.ofText manifest) (given.last? .format))
      | _ => none
  | "resolve" =>
    (given? resolveRules true arguments).bind fun given =>
      match given.operands with
      | [manifest] =>
        some (.resolve {
          manifest := FilePath.ofText manifest
          format := given.last? .format
          configuration
          pairs := given.values .modifier
          all := given.has .all
          directory := (given.last? .output).map FilePath.ofText
          references := referencesOf given })
      | _ => none
  | "cycles" =>
    (given? ([] : List (OptionRule Meaning)) true arguments).bind fun given =>
      match given.operands with
      | [file] => some (.cycles (FilePath.ofText file))
      | _ => none
  | "merge" =>
    (given? [outputRule] true arguments).bind fun given =>
      match given.operands with
      | [] => none
      | files =>
        some (.merge (files.map FilePath.ofText) ((given.last? .output).map FilePath.ofText))
  | _ => none

/-- What a command line asks for.  The version is shown whatever command follows. -/
def Request.ofArguments? (arguments : List String) : Option Request :=
  (given? generalRules false arguments).bind fun given =>
    if given.has .version then some .version
    else
      match given.operands with
      | command :: rest =>
        requestOf? ((given.last? .configuration).map FilePath.ofText) command rest
      | [] => none

end DesignTokens.CommandLine

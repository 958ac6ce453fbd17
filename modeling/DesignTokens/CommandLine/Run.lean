import DesignTokens.CommandLine.Grid
import DesignTokens.CommandLine.Request
import DesignTokens.Manifest.Loading
import DesignTokens.Permutation.Resolution
import DesignTokens.Reading.Directory
import DesignTokens.Value.Writer
import DesignTokens.Yaml.Reader

/-! # Running a command line

A run takes arguments and a file system to what is printed, an exit code and the file system after
it.  Failures that concern the user's files are printed; any other failure breaks the run off.
-/

namespace DesignTokens.CommandLine

/-- What a run leaves behind. -/
structure Outcome where
  exitCode : Nat
  output : String
  errors : String
  files : FileSystem
  deriving Inhabited

/-- What breaks a run off. -/
inductive Breakdown where
  | failure (failure : Failure)
  | style
  | write (fault : WriteFault)
  deriving Inhabited

def Breakdown.message : Breakdown → String
  | .failure f => f.message
  | .style => "a closing tag has no opening tag"
  | .write .occupied => "a file stands where a directory should be"
  | .write .blocked => "a path goes on below a file"
  | .write .directory => "a directory stands where a file should be"

/-- A run, which may break off. -/
abbrev Run := Except Breakdown Outcome

def versionText : String := "tokenweave 0.3.0"

/-- The exit code of a command line that asks for nothing. -/
def usageCode : Nat := 2

/-- What is printed for a command line that asks for nothing. -/
def usageText : String :=
  "usage: tokenweave [--version] [--verbose] [--config FILE] COMMAND\n" ++
  "  list MANIFEST [--format NAME]\n" ++
  "  resolve MANIFEST [--modifier NAME=VALUE] [--all] [--output DIRECTORY]\n" ++
  "    [--resolve | --no-resolve] [--format NAME]\n" ++
  "  cycles FILE\n" ++
  "  merge FILE... [--output FILE]\n"

def printed (s : String) : Except Breakdown String :=
  match Markup.plain? s with
  | some text => .ok (text ++ "\n")
  | none => .error .style

/-- A failure of a computation that breaks the run off. -/
def orBreak {α : Type} (result : Except Failure α) : Except Breakdown α :=
  result.mapError .failure

/-- Whether a failure is explained to the user. -/
def isExplained : Failure → Bool
  | .general _ _ => true
  | .manifest _ _ _ => true
  | .conflict _ _ => true
  | .resolution _ _ _ => true
  | .file _ _ => true
  | .config _ _ => true
  | _ => false

def fail (fs : FileSystem) (explanation : String) : Run :=
  (printed ("[red]Error:[/red] " ++ explanation)).map fun errors => ⟨1, "", errors, fs⟩

/-- Goes on with a result, or ends with the explanation of its failure. -/
def explaining {α : Type} (fs : FileSystem) (result : Except Failure α) (go : α → Run) : Run :=
  match result with
  | .ok a => go a
  | .error failure =>
    if isExplained failure then fail fs (Markup.escape failure.message)
    else .error (.failure failure)

/-! ## Documents -/

/-- What was printed, and the file system after it. -/
abbrev Progress := String × FileSystem

/-- Prints a document, or writes it to a file and says so. -/
def deliver (document : Value) (target : Option FilePath) : Progress → Except Breakdown Progress
  | (output, fs) =>
    match target with
    | none => .ok (output ++ document.indented ++ "\n", fs)
    | some path =>
      match fs.writeText path (document.indented ++ "\n") with
      | .error fault => .error (.write fault)
      | .ok fs =>
        (printed ("[green]Wrote[/green] " ++ path.text)).map fun line => (output ++ line, fs)

def succeed : Progress → Outcome
  | (output, fs) => ⟨0, output, "", fs⟩

def documentAt (fs : FileSystem) (file : FilePath) : Except Failure Value :=
  ((TokenDirectory.read Yaml.read? fs file.name).run (TokenDirectory.ofPath file.parent true)).1

/-! ## Commands -/

def rowOf (m : Manifest) (job : Manifest.Job) : Except Failure (List String) := do
  let files ← m.files job.selection (job.spec.getD .empty)
  let id ← Permutation.idOf job.selection
  return [id, job.output.getD "-", Text.joinWith "\n" files]

def gridText (g : Grid) : Except Breakdown String :=
  match g.render? with
  | some text => .ok text
  | none => .error .style

/-- Lists the selections that a manifest asks for. -/
def runList (fs : FileSystem) (path : FilePath) (format : Option String) : Run :=
  explaining fs (FormatRegistry.builtIn.load Yaml.read? fs path format) fun parsed => do
    let m := parsed.manifest
    let count := if m.generate.isNone then toString m.selectionCount ++ " permutation(s)\n" else ""
    let rows ← orBreak (m.jobs.mapM (rowOf m))
    let title := (Context.given m.name).getD path.text
    let grid ← gridText ⟨title, ["ID", "Output", "Files"], rows⟩
    return succeed (count ++ grid, fs)

/-- The settings for a manifest: those of the file that is named, else those of the nearest one,
else those that hold for the directory of the manifest. -/
def configurationOf (fs : FileSystem) (request : ResolveRequest) : Except Failure Configuration :=
  let directory := request.manifest.parent
  let configuration :=
    match request.configuration.or (Configuration.find? fs directory) with
    | some path => Configuration.load fs path
    | none => .ok { Configuration.standard with basePath := directory.text }
  configuration.map fun c =>
    { c with resolveReferences := request.references.or c.resolveReferences }

/-- The entry of a selection that a pair writes.  The options of an anyOf modifier are separated by
commas. -/
def entryOf? (m : Manifest) (pair : String) : Option (String × Value) :=
  match Text.cut '=' pair.toList with
  | (name, some value) =>
    let name := String.ofList name
    match m.modifiers.get? name with
    | some (.anyOf _ _) =>
      if name = outputKey then some (name, .text (String.ofList value))
      else
        let options := (Text.splitOn ',' value).filter fun option => !option.isEmpty
        some (name, .list (options.map fun option => .text (String.ofList option)))
    | _ => some (name, .text (String.ofList value))
  | (_, none) => none

/-- The selection that pairs write, or the first pair that writes nothing. -/
def selectionOf (m : Manifest) : Selection → List String → Except String Selection
  | s, [] => .ok s
  | s, pair :: pairs =>
    match entryOf? m pair with
    | some (name, v) => selectionOf m (Table.put s name v) pairs
    | none => .error pair

/-- Prints or writes the results one after the other.  Several results are printed under their
names. -/
def deliverAll (directory : Option FilePath) (several : Bool) :
    List Permutation → Progress → Except Breakdown Progress
  | [], progress => .ok progress
  | p :: results, (output, fs) => do
    let progress ←
      match directory with
      | none =>
        let rule ← if several then printed p.id else .ok ""
        deliver p.document none (output ++ rule, fs)
      | some directory =>
        let name := (Context.given p.output).getD (p.id ++ ".json")
        deliver p.document (some (directory.below (FilePath.ofText name))) (output, fs)
    deliverAll directory several results progress

/-- Resolves one selection or all of them. -/
def runResolve (fs : FileSystem) (request : ResolveRequest) : Run :=
  explaining fs (configurationOf fs request) fun config =>
    let loaded := FormatRegistry.builtIn.load Yaml.read? fs request.manifest request.format
    explaining fs loaded fun parsed =>
      let m := parsed.manifest
      let files := TokenDirectory.ofPath (FilePath.ofText config.basePath) config.cache
      let read := TokenDirectory.read Yaml.read? fs
      let finish := fun (results : List Permutation) =>
        (deliverAll request.directory (results.length > 1) results ("", fs)).map succeed
      if request.all then explaining fs ((m.resolveAll read (some config)).run files).1 finish
      else
        match selectionOf m [] request.pairs with
        | .error pair => fail fs ("expected name=value, got '" ++ Markup.escape pair ++ "'")
        | .ok s =>
          explaining fs ((m.resolve read (some config) s .empty).run files).1 fun p => finish [p]

def cycleText (cycle : List String) : String := Text.joinWith " -> " (cycle ++ cycle.take 1)

/-- Reports the alias cycles in a token file. -/
def runCycles (fs : FileSystem) (file : FilePath) : Run :=
  explaining fs (documentAt fs file) fun document => do
    let cycles := (Group.build document).aliasCycles.cycles
    if cycles.isEmpty then
      (printed "[green]No cycles found[/green]").map fun line => succeed (line, fs)
    else
      let rows := (List.range cycles.length).zip cycles |>.map fun (n, cycle) =>
        [toString (n + 1), cycleText cycle]
      let grid ← gridText ⟨"Cycles in " ++ file.text, ["#", "Cycle"], rows⟩
      return ⟨1, grid, "", fs⟩

/-- Merges token files from the first to the last. -/
def runMerge (fs : FileSystem) (files : List FilePath) (target : Option FilePath) : Run :=
  let merged : Except Failure Value := do
    let documents ← files.mapM (documentAt fs)
    (Merge.all documents).mapError Failure.ofMerge
  explaining fs merged fun document => (deliver document target ("", fs)).map succeed

/-- The directories from which a request reads files. -/
def Request.directories (fs : FileSystem) : Request → List FilePath
  | .version => []
  | .list manifest _ => [manifest.parent]
  | .resolve request =>
    let base := (configurationOf fs request).toOption.map fun c => FilePath.ofText c.basePath
    request.manifest.parent ::
      ((request.configuration.map FilePath.parent).toList ++ base.toList)
  | .cycles file => [file.parent]
  | .merge files _ => files.map FilePath.parent

def Request.run (fs : FileSystem) : Request → Run
  | .version => .ok (succeed (versionText ++ "\n", fs))
  | .list manifest format => runList fs manifest format
  | .resolve request => runResolve fs request
  | .cycles file => runCycles fs file
  | .merge files target => runMerge fs files target

/-- Runs a command line. -/
def run (fs : FileSystem) (arguments : List String) : Run :=
  match Request.ofArguments? arguments with
  | some request => request.run fs
  | none => .ok ⟨usageCode, "", usageText, fs⟩

end DesignTokens.CommandLine

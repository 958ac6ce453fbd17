import DesignTokens.FilePath
import DesignTokens.Graph.Cycles
import DesignTokens.Reference.Pointer
import DesignTokens.Token.Build

/-! # Projects

A project is a table of token files by their keys.  A file that names another one by a pointer
depends on it; the name is tried from the root of the project first, then from the directory of the
naming file.
-/

namespace DesignTokens

/-- A token file: its key, its tree and its pointers into other files, sorted. -/
structure TokenFile where
  path : String
  tree : Group
  crossReferences : List String
  deriving Inhabited

namespace TokenFile

/-- Whether a pointer leads into another file. -/
def isCrossReference (ref : String) : Bool := !(Text.cut '#' ref.toList).1.isEmpty

def sortedDistinct (texts : List String) : List String :=
  (texts.mergeSort fun a b => !decide (b < a)).eraseDups

/-- The token file of a document. -/
def build (path : String) (document : Value) : TokenFile :=
  let tree := Group.build document
  { path := FilePath.fileKey path none
    tree
    crossReferences :=
      sortedDistinct ((tree.tokens.flatMap Token.pointers).filter isCrossReference) }

end TokenFile

/-- The files of a project, and whether pointers may lead from one to another. -/
structure Project where
  files : Table String TokenFile
  linked : Bool
  deriving Inhabited

namespace Project

/-- Adds a file whose path is its key, in the place of one with the same key. -/
def add (p : Project) (file : TokenFile) : Project :=
  { p with files := p.files.put file.path file }

/-- Adds a file under the key of its path, however that is spelled. -/
def addFile (p : Project) (file : TokenFile) : Project :=
  p.add { file with path := FilePath.fileKey file.path none }

def build (documents : Table String Value) : Project :=
  documents.foldl (fun p d => p.add (TokenFile.build d.1 d.2)) ⟨[], true⟩

/-- One tree on its own: a file without a name, from which no pointer leads to another file. -/
def single (tree : Group) : Project := ⟨[("", ⟨"", tree, []⟩)], false⟩

/-- The file with a name, which may be relative to a referring file. -/
def file? (p : Project) (name : String) (relativeTo : Option String) : Option TokenFile :=
  match p.files.get? (FilePath.fileKey name none), relativeTo with
  | some file, _ => some file
  | none, none => none
  | none, some base => p.files.get? (FilePath.fileKey name (some base))

def tree? (p : Project) (key : String) : Option Group := (p.files.get? key).map TokenFile.tree

def setTree (p : Project) (key : String) (tree : Group) : Project :=
  { p with files := p.files.modify key fun file => { file with tree } }

/-- The key of the file that a pointer names, loaded or not. -/
def targetOf? (p : Project) (file : TokenFile) (ref : String) : Option String :=
  match Pointer.parse ref with
  | .ok ⟨_, some name, _⟩ =>
    some (((p.file? name (some file.path)).map TokenFile.path).getD
      (FilePath.fileKey name (some file.path)))
  | _ => none

/-- Which file names which files. -/
def dependencies (p : Project) : Graph String :=
  p.files.map fun (key, file) =>
    (key, (file.crossReferences.filterMap (p.targetOf? file)).eraseDups)

/-- The cycles among the files, and their order if there are none. -/
def fileOrder (p : Project) : CycleReport String := p.dependencies.findCycles

end Project

end DesignTokens

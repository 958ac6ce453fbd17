import DesignTokens.Failure
import DesignTokens.FilePath

/-! # Documents in memory

A shelf holds documents by the keys of their paths and remembers what was asked for.  Two readers
can be laid over each other: the shelf in front answers for what it holds, the other one for the
rest.
-/

namespace DesignTokens

/-- A way to read a document by its path, which may change a state. -/
abbrev DocumentReader (σ : Type) := String → ExceptT Failure (StateM σ) Value

/-- Documents by the keys of their paths, and the paths that were asked for. -/
structure Shelf where
  documents : Table String Value
  asked : List String
  deriving Inhabited

namespace Shelf

/-- The shelf of some documents.  Two spellings of a path are one place, and the last document
stays there. -/
def ofDocuments (documents : Table String Value) : Shelf :=
  ⟨Table.ofPairs (documents.map fun (path, v) => (FilePath.fileKey path none, v)), []⟩

def document? (s : Shelf) (path : String) : Option Value :=
  s.documents.get? (FilePath.fileKey path none)

def missing (path : String) : Failure := .file (.notFound path) (some (Context.ofFile path))

def read : DocumentReader Shelf := fun path => do
  modify fun s => { s with asked := s.asked ++ [path] }
  match (← get).document? path with
  | some v => return v
  | none => throw (missing path)

/-- A shelf in front of another reader. -/
def readBefore {σ : Type} (read : DocumentReader σ) : DocumentReader (Shelf × σ) :=
  fun path => do
    let (shelf, state) ← get
    match shelf.document? path with
    | some v =>
      set ({ shelf with asked := shelf.asked ++ [path] }, state)
      return v
    | none =>
      let (outcome, state) := (read path).run state
      set (shelf, state)
      match outcome with
      | .ok v => return v
      | .error failure => throw failure

end Shelf

/-- A reader behind some documents that are read without a trace. -/
def DocumentReader.behind {σ : Type} (read : DocumentReader σ) (inline : Table String Value) :
    DocumentReader σ :=
  let shelf := Shelf.ofDocuments inline
  fun path =>
    match shelf.document? path with
    | some v => pure v
    | none => read path

end DesignTokens

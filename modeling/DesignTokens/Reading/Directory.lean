import DesignTokens.FileSystem
import DesignTokens.Reading.Form
import DesignTokens.Reading.Shelf

/-! # Token files

Token files are read from below a base directory.  A document that was read once may be kept, so
that a later change of the file is not seen.
-/

namespace DesignTokens

/-- A directory with token files, and the documents that are kept. -/
structure TokenDirectory where
  base : FilePath
  caching : Bool
  kept : Table String Value
  deriving Inhabited

namespace TokenDirectory

def ofPath (base : FilePath) (caching : Bool) : TokenDirectory := ⟨base, caching, []⟩

def pathOf (d : TokenDirectory) (path : String) : FilePath :=
  d.base.below (FilePath.ofText (FilePath.fileKey path none))

def forgetful (d : TokenDirectory) : TokenDirectory := { d with kept := [] }

/-- The document in a file, which must be an object. -/
def load (yaml : TextReader) (fs : FileSystem) (file : FilePath) (path : String) :
    Except Failure Value :=
  let context := some (Context.ofFile path)
  let suffix := Text.lower file.suffix
  match FileForm.ofSuffix? suffix with
  | none => .error (.file (.unsupported suffix) context)
  | some form =>
    match fs.readText file with
    | .error .missing => .error (.file (.notFound file.text) context)
    | .error .unreadable => .error (.file (.unreadable file.text) context)
    | .error .notUtf8 => .error (.notUtf8 file.text)
    | .ok text =>
      match form.read? yaml text with
      | none => .error (.file (.invalid file.text) context)
      | some v =>
        if v.isObject then .ok v else .error (.file (.notAnObject v.kind) context)

/-- Reads the document at a path. -/
def read (yaml : TextReader) (fs : FileSystem) : DocumentReader TokenDirectory := fun path => do
  let d ← get
  let key := FilePath.fileKey path none
  match d.kept.get? key with
  | some v => return v
  | none =>
    let v ← load yaml fs (d.pathOf path) path
    if d.caching then set { d with kept := d.kept.put key v }
    return v

end TokenDirectory

end DesignTokens

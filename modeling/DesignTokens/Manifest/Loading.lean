import DesignTokens.Manifest.Format
import DesignTokens.Reading.Form

/-! # Manifest files

A manifest file is YAML if its name says so and JSON otherwise.
-/

namespace DesignTokens.FormatRegistry

/-- The manifest in a file. -/
def load (r : FormatRegistry) (yaml : TextReader) (fs : FileSystem) (path : FilePath)
    (format : Option String) : Except Failure ParsedManifest :=
  match fs.readText path with
  | .error .notUtf8 => .error (.notUtf8 path.text)
  | .error _ => .error (.file (.unreadableManifest path.text) none)
  | .ok text =>
    let form := (FileForm.ofSuffix? (Text.lower path.suffix)).getD .json
    match form.read? yaml text with
    | none => .error (.file (.invalidManifest path.text) none)
    | some data => r.parse fs data (some path.text) format

end DesignTokens.FormatRegistry

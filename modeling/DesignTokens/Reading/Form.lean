import DesignTokens.Text.Lower
import DesignTokens.Value.Reader

/-! # Forms of files

The form of a file follows from the end of its name.  JSON is read here; how YAML is read is left to
whoever asks for a file.
-/

namespace DesignTokens

/-- A way to read the value that a text writes. -/
abbrev TextReader := String → Option Value

/-- How a file writes its document. -/
inductive FileForm where
  | json
  | yaml
  deriving DecidableEq, Repr, Inhabited

namespace FileForm

def ofSuffix? (suffix : String) : Option FileForm :=
  if suffix = ".json" then some .json
  else if suffix = ".yaml" ∨ suffix = ".yml" then some .yaml
  else none

def read? (yaml : TextReader) : FileForm → TextReader
  | .json => Json.read?
  | .yaml => yaml

end FileForm

end DesignTokens

import DesignTokens.Manifest.DtcgResolver
import DesignTokens.Manifest.DtcgThemes

/-! # Formats of manifests

A format recognizes data by their shape and reads a manifest from them.  Formats are tried in the
order in which they were registered.
-/

namespace DesignTokens

/-- A format: how to recognize it and how to read it. -/
structure ManifestFormat where
  recognizes : Value → Bool
  parse : FileSystem → Table String Value → Option String → Except Failure ParsedManifest

/-- The known formats by name, in the order of registration. -/
abbrev FormatRegistry := Table String ManifestFormat

namespace FormatRegistry

/-- The formats that are always known. -/
def builtIn : FormatRegistry :=
  [(Upft.formatName, ⟨Upft.recognizes, fun _ => Upft.parse⟩),
   (DtcgResolver.formatName, ⟨DtcgResolver.recognizes, fun _ => DtcgResolver.parse⟩),
   (DtcgThemes.formatName, ⟨DtcgThemes.recognizes, DtcgThemes.parse⟩)]

/-- Registers a format.  A name that is taken keeps its format. -/
def register (r : FormatRegistry) (name : String) (format : ManifestFormat) : FormatRegistry :=
  Table.putNew r name format

/-- The format with a name. -/
def format (r : FormatRegistry) (name : String) : Except Failure ManifestFormat :=
  match Table.get? r name with
  | some format => .ok format
  | none =>
    .error (.ofManifest "Unknown manifest format"
      [⟨"", .notAmong (.text name) (Table.keys r)⟩] none)

def detect? (r : FormatRegistry) (data : Value) : Option String :=
  (r.find? fun entry => entry.2.recognizes data).map Prod.fst

/-- Reads a manifest in a given format, or in the format that recognizes it.  What no format with a
name recognizes is read in the plain form, so that its faults are reported. -/
def parse (r : FormatRegistry) (fs : FileSystem) (data : Value) (source format : Option String) :
    Except Failure ParsedManifest :=
  match data with
  | .object members =>
    match format with
    | none => do
      let found ← r.format ((Context.given (r.detect? data)).getD Upft.formatName)
      found.parse fs members source
    | some name => do
      let found ← r.format name
      if name = Upft.formatName || found.recognizes data then found.parse fs members source
      else
        throw (.ofManifest Manifest.invalidTitle [⟨"", .wrongFormat name⟩] source)
  | _ => .error (.ofManifest Manifest.invalidTitle [⟨"", .notAManifest⟩] source)

end FormatRegistry

end DesignTokens

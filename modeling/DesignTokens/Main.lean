import DesignTokens.CommandLine.Run

/-! # The program

The program takes a picture of the files that a request may read, runs the request on it and writes
the files that have changed.  The picture holds what lies below the working directory and below the
directories of the request, and the configuration files above them.
-/

namespace DesignTokens.Program

/-- The entry for a path on disk, and nothing if there is none. -/
def entryAt? (path : String) : IO (Option Entry) := do
  try
    let found ← IO.FS.realPath path
    if ← found.isDir then return some .directory
    else return some (.file (← IO.FS.readBinFile path))
  catch _ => return none

def pathText (parts : List String) : String := "/" ++ Text.join '/' parts

/-- A picture with everything below a directory. -/
partial def seeBelow (fs : FileSystem) (parts : List String) : IO FileSystem := do
  match ← entryAt? (pathText parts) with
  | none => return fs
  | some (.file bytes) => return fs.store parts (.file bytes)
  | some .directory =>
    let mut fs := fs.store parts .directory
    for entry in ← (← IO.FS.realPath (pathText parts)).readDir do
      fs ← seeBelow fs (parts ++ [entry.fileName])
    return fs

/-- A picture with the configuration files in some directories and above them. -/
def seeConfiguration (fs : FileSystem) (directories : List (List String)) : IO FileSystem := do
  let mut fs := fs
  for directory in directories do
    for above in Configuration.upward directory do
      let parts := above ++ [Configuration.fileName]
      if let some (.file bytes) ← entryAt? (pathText parts) then fs := fs.store parts (.file bytes)
  return fs

/-- A picture with everything below some directories that it does not show yet. -/
def seeAll (fs : FileSystem) (directories : List (List String)) : IO FileSystem := do
  let mut fs := fs
  for parts in directories do
    if (fs.entries.get? parts).isNone then fs ← seeBelow fs parts
  return fs

def picture (arguments : List String) : IO FileSystem := do
  let here := (FilePath.ofText (← IO.currentDir).toString).parts
  let mut fs ← seeBelow (FileSystem.empty here) here
  match CommandLine.Request.ofArguments? arguments with
  | none => return fs
  | some request =>
    let directories := fun (fs : FileSystem) => (request.directories fs).map fs.absolute
    fs ← seeConfiguration fs (here :: directories fs)
    fs ← seeAll fs (directories fs)
    seeAll fs (directories fs)

/-- Writes the files that have changed. -/
def writeChanges (before after : FileSystem) : IO Unit := do
  for (parts, bytes) in before.changedFiles after do
    IO.FS.createDirAll (pathText parts.dropLast)
    IO.FS.writeBinFile (pathText parts) bytes

/-- Runs a command line and gives its exit code. -/
def run (arguments : List String) : IO UInt32 := do
  let before ← picture arguments
  match CommandLine.run before arguments with
  | .ok outcome =>
    writeChanges before outcome.files
    IO.print outcome.output
    IO.eprint outcome.errors
    return outcome.exitCode.toUInt32
  | .error breakdown =>
    IO.eprintln breakdown.message
    return 1

end DesignTokens.Program

/-- The entry point of the program. -/
def main (arguments : List String) : IO UInt32 := DesignTokens.Program.run arguments

import DesignTokens.FilePath
import DesignTokens.Table

/-! # File systems

A file system is a table from absolute paths to files and directories, with a directory in which
relative paths begin.  Looking up a path goes part by part, so a path through a file or through
something that does not exist leads nowhere, even if a later `..` would take it back.
-/

namespace DesignTokens

/-- A file with its bytes, or a directory. -/
inductive Entry where
  | file (bytes : ByteArray)
  | directory
  deriving Inhabited

/-- The files and directories by the parts of their absolute paths, and the working directory. -/
structure FileSystem where
  entries : Table (List String) Entry
  workingDirectory : List String
  deriving Inhabited

/-- What is found at a path. -/
inductive Found where
  | file (bytes : ByteArray)
  | directory
  | nothing
  | blocked
  deriving Inhabited

/-- Why a file cannot be written. -/
inductive WriteFault where
  | occupied
  | blocked
  | directory
  deriving DecidableEq, Repr, Inhabited

/-- Why a path leads to no text. -/
inductive ReadFault where
  | missing
  | unreadable
  | notUtf8
  deriving DecidableEq, Repr, Inhabited

namespace FileSystem

/-- A file system without files in which relative paths begin at a directory. -/
def empty (workingDirectory : List String) : FileSystem := ⟨[], workingDirectory⟩

/-- The entry at an absolute path.  The working directory and all directories above it exist. -/
def entry? (fs : FileSystem) (parts : List String) : Option Entry :=
  match fs.entries.get? parts with
  | some entry => some entry
  | none => if parts.isPrefixOf fs.workingDirectory then some .directory else none

/-- Goes on from a directory, part by part. -/
def walk (fs : FileSystem) (here : List String) : List String → Found × List String
  | [] =>
    match fs.entry? here with
    | some (.file bytes) => (.file bytes, here)
    | some .directory => (.directory, here)
    | none => (.nothing, here)
  | part :: rest =>
    match fs.entry? here with
    | some .directory => walk fs (if part = ".." then here.dropLast else here ++ [part]) rest
    | some (.file _) => (.blocked, here)
    | none => (.nothing, here)

/-- The directory in which a path begins. -/
def origin (fs : FileSystem) (p : FilePath) : List String :=
  if p.isAbsolute then [] else fs.workingDirectory

def find (fs : FileSystem) (p : FilePath) : Found := (fs.walk (fs.origin p) p.parts).1

def isFile (fs : FileSystem) (p : FilePath) : Bool :=
  match fs.find p with
  | .file _ => true
  | _ => false

def isDirectory (fs : FileSystem) (p : FilePath) : Bool :=
  match fs.find p with
  | .directory => true
  | _ => false

def existsAt (fs : FileSystem) (p : FilePath) : Bool := fs.isFile p || fs.isDirectory p

/-- The absolute parts of a path, in which `..` takes the part before it away. -/
def absolute (fs : FileSystem) (p : FilePath) : List String :=
  (FilePath.normalize ⟨1, fs.origin p ++ p.parts⟩).parts

/-- Stores an entry and the directories above it. -/
def store (fs : FileSystem) (parts : List String) (entry : Entry) : FileSystem :=
  let above := (List.range parts.length).map parts.take
  let entries := above.foldl (fun t d => t.putNew d .directory) fs.entries
  { fs with entries := entries.put parts entry }

def write (fs : FileSystem) (p : FilePath) (bytes : ByteArray) : FileSystem :=
  fs.store (fs.absolute p) (.file bytes)

def makeDirectory (fs : FileSystem) (p : FilePath) : FileSystem :=
  fs.store (fs.absolute p) .directory

def delete (fs : FileSystem) (p : FilePath) : FileSystem :=
  { fs with entries := fs.entries.filter fun e => !decide (e.1 = fs.absolute p) }

def names (fs : FileSystem) (parts : List String) : List String :=
  fs.entries.filterMap fun e =>
    if e.1.length = parts.length + 1 ∧ parts.isPrefixOf e.1 then e.1.getLast? else none

def namesAt (fs : FileSystem) (p : FilePath) : List String :=
  match fs.walk (fs.origin p) p.parts with
  | (.directory, here) => fs.names here
  | _ => []

/-- A text with every line end written as one line feed. -/
def withLineFeeds : List Char → List Char
  | '\r' :: '\n' :: rest => '\n' :: withLineFeeds rest
  | '\r' :: rest => '\n' :: withLineFeeds rest
  | c :: rest => c :: withLineFeeds rest
  | [] => []

def decode? (bytes : ByteArray) : Option String :=
  (String.fromUTF8? bytes).map fun s => String.ofList (withLineFeeds s.toList)

/-- The text of the file that a path leads to. -/
def readText (fs : FileSystem) (p : FilePath) : Except ReadFault String :=
  match fs.find p with
  | .file bytes =>
    match decode? bytes with
    | some text => .ok text
    | none => .error .notUtf8
  | .nothing => .error .missing
  | .directory => .error .unreadable
  | .blocked => .error .unreadable

def writeText (fs : FileSystem) (p : FilePath) (text : String) : Except WriteFault FileSystem :=
  match fs.find p.parent with
  | .file _ => .error .occupied
  | .blocked => .error .blocked
  | _ => if fs.isDirectory p then .error .directory else .ok (fs.write p text.toUTF8)

def bytes? (fs : FileSystem) (parts : List String) : Option ByteArray :=
  match fs.entries.get? parts with
  | some (.file bytes) => some bytes
  | _ => none

def changedFiles (before after : FileSystem) : List (List String × ByteArray) :=
  after.entries.filterMap fun (parts, entry) =>
    match entry with
    | .file bytes => if before.bytes? parts != some bytes then some (parts, bytes) else none
    | .directory => none

/-- The files below the working directory that are new or have changed, in order of their relative
paths. -/
def changedBelow (before after : FileSystem) : List (List String × ByteArray) :=
  let start := after.workingDirectory
  let changed := (before.changedFiles after).filterMap fun (parts, bytes) =>
    if start.isPrefixOf parts then some (parts.drop start.length, bytes) else none
  changed.mergeSort fun a b => !decide (b.1 < a.1)

end FileSystem

end DesignTokens

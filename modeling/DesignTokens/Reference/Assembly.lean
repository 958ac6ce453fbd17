import DesignTokens.Project
import DesignTokens.Reference.Problem

/-! # Assembly

Assembly replaces every pointer by what it points to.  An object with a `$ref` text stands for the
value of the token that the pointer names, or a part of that value; the token is assembled first.
Tokens on the way are in progress, and a pointer to one of them is circular.  A token is assembled
once: what failed before is not tried again.

Problems are collected.  What ends the work is a numeral: a part of a pointer that consists of
digits but is no number, or a limit that cannot be put into words.  What was assembled until then
stays. -/

namespace DesignTokens

/-- A token by the key of its file and its path. -/
abbrev TokenKey := String × String

/-- The state of an assembly. -/
structure Assembly where
  project : Project
  maxDepth : Int
  inProgress : List TokenKey
  failed : Table TokenKey ProblemKind
  done : List TokenKey
  problems : List Problem
  deriving Inhabited

/-- A step of an assembly. -/
abbrev AssemblyM := ExceptT NumeralFault (StateM Assembly)

def fileName? (key : String) : Option String := if key = "" then none else some key

namespace Assembly

def start (project : Project) (maxDepth : Int) : Assembly := ⟨project, maxDepth, [], [], [], []⟩

def tokenAt? (s : Assembly) (file : String) (place : Place) : Option Token :=
  (s.project.tree? file).bind fun tree => tree.tokenAt? place

def modifyToken (s : Assembly) (file : String) (place : Place) (f : Token → Token) : Assembly :=
  match s.project.tree? file with
  | none => s
  | some tree => { s with project := s.project.setTree file (tree.modifyToken place f) }

/-- The key of the file that a pointer leads to. -/
def fileOf (s : Assembly) (p : Pointer) (file : String) : Except Cause String :=
  match p.file with
  | none => .ok file
  | some name =>
    if s.project.linked then
      match s.project.file? name (fileName? file) with
      | some target => .ok target.path
      | none => .error (.fileNotLoaded name)
    else .error (.noProject name)

/-- Collects a problem.  The first kind of failure of a token is the one that counts. -/
def record (s : Assembly) (file path : String) (kind : ProblemKind) (cause : Cause)
    (reference : Option String) : Assembly :=
  { s with
    failed := s.failed.putNew (file, path) kind
    problems := s.problems ++ [⟨kind, path, cause, reference, fileName? file⟩] }

end Assembly

namespace Token

/-- A token with its assembled value and the references that the value makes now.  Aliases and
malformed texts that were known before stay known. -/
def assembled (t : Token) (value : Value) : Token :=
  let scan := Scan.of value
  let references := (t.references ++ scan.aliases).eraseDups
  let malformed := t.malformed ++ (scan.malformed.eraseDups.filter fun s => s ∉ t.malformed)
  let resolved := references.isEmpty && scan.pointers.isEmpty && malformed.isEmpty
  { t with
    value, references, malformed, resolved
    pointers := scan.pointers
    resolvedValue := if resolved then value else .null }

end Token

namespace Assembly

mutual

/-- A value in which every outermost pointer object is replaced, if it can be. -/
def expand (replace : String → AssemblyM (Option Value)) : Value → AssemblyM Value
  | .list items => do return .list (← expandItems replace items)
  | .object members =>
    match Value.pointerOf? members with
    | some ref => do return (← replace ref).getD (.object members)
    | none => do return .object (← expandMembers replace members)
  | v => return v

/-- The items of a list with their pointers replaced. -/
def expandItems (replace : String → AssemblyM (Option Value)) :
    List Value → AssemblyM (List Value)
  | [] => return []
  | v :: items => do
    let first ← expand replace v
    let others ← expandItems replace items
    return first :: others

/-- The members of an object with their pointers replaced. -/
def expandMembers (replace : String → AssemblyM (Option Value)) :
    List (String × Value) → AssemblyM (List (String × Value))
  | [] => return []
  | (key, v) :: members => do
    let first ← expand replace v
    let others ← expandMembers replace members
    return (key, first) :: others

end

/-- What a pointer of a file stands for.  `assemble` assembles the token at a place of a file and
says whether that succeeded. -/
def follow (assemble : String → Place → AssemblyM Bool) (file ref : String) :
    AssemblyM (Except (ProblemKind × Cause) Value) := do
  match Pointer.parse ref with
  | .error fault => return .error (.invalid, .pointer fault)
  | .ok p =>
    match (← get).fileOf p file with
    | .error cause => return .error (.missing, cause)
    | .ok targetFile =>
      match ((← get).project.tree? targetFile).map p.target with
      | none => return .error (.missing, .noToken ref)
      | some (.error cause) => return .error (.missing, cause)
      | some (.ok (place, target, rest)) =>
        let ready ← if target.pointers.isEmpty then pure true else assemble targetFile place
        if ready then
          let value := (((← get).tokenAt? targetFile place).map Token.value).getD target.value
          match ← liftExcept (Pointer.descend ref value rest) with
          | .ok part => return .ok part
          | .error cause => return .error (.missing, cause)
        else
          let kind := ((← get).failed.get? (targetFile, target.path)).getD .missing
          let cause :=
            if kind = .circular then .circularPointer target.path
            else .unresolvedTarget target.path
          return .error (kind, cause)
where
  liftExcept {α : Type} (outcome : Except NumeralFault α) : AssemblyM α :=
    match outcome with
    | .ok a => pure a
    | .error e => throw e

/-- What a pointer of a token is replaced by, if it can be followed. -/
def replacement (assemble : String → Place → AssemblyM Bool) (file path ref : String) :
    AssemblyM (Option Value) := do
  match ← follow assemble file ref with
  | .ok v => return some v
  | .error (kind, cause) =>
    modify fun s => s.record file path kind cause (some ref)
    return none

/-- Assembles the token at a place of a file, with a number of hops that may still be made, and
says whether all its pointers could be followed. -/
def assembleToken : (hops : Nat) → (file : String) → Place → AssemblyM Bool
  | hops, file, place => do
    let s ← get
    match s.tokenAt? file place with
    | none => return false
    | some t =>
      let key := (file, t.path)
      if key ∈ s.done then return !s.failed.has key
      else if key ∈ s.inProgress then
        set { s with failed := s.failed.put key .circular }
        return false
      else
        match hops with
        | 0 =>
          if isWritable s.maxDepth then
            set (Assembly.record { s with failed := s.failed.put key .depth } file t.path .depth
              (.tooDeep s.maxDepth) none)
            return false
          else throw (.unwritable s.maxDepth)
        | hops + 1 =>
          set { s with inProgress := key :: s.inProgress }
          let value ← expand (replacement (assembleToken hops) file t.path) t.value
          let assembled := t.assembled value
          modify fun s =>
            { s with inProgress := s.inProgress.filter (· ≠ key), done := key :: s.done }
          modify fun s => s.modifyToken file place fun _ => assembled
          if assembled.pointers.isEmpty then return true
          else
            modify fun s => { s with failed := s.failed.putNew key .missing }
            return false

/-- The number of hops that a limit allows from the first token on. -/
def hopsWithin (maxDepth : Int) : Nat := (maxDepth + 1).toNat

/-- Assembles the tokens at some places of a file, those that have pointers when their turn
comes. -/
def assemblePlaces (file : String) : List Place → AssemblyM Unit
  | [] => return
  | place :: places => do
    let s ← get
    match s.tokenAt? file place with
    | some t =>
      if !t.pointers.isEmpty then
        let _ ← assembleToken (hopsWithin s.maxDepth) file place
    | none => pure ()
    assemblePlaces file places

def assembleFile (file : String) : AssemblyM Unit := do
  match (← get).project.tree? file with
  | some tree => assemblePlaces file (tree.placedTokens.map Prod.fst)
  | none => return

def assembleFiles : List String → AssemblyM Unit
  | [] => return
  | file :: files => do
    assembleFile file
    assembleFiles files

end Assembly

namespace Project

/-- The project after an assembly, with the problems that were found. -/
def finish (outcome : Except NumeralFault Unit × Assembly) :
    Project × Except NumeralFault (List Problem) :=
  (outcome.2.project, outcome.1.map fun _ => outcome.2.problems)

def assembleFile (p : Project) (file : String) (maxDepth : Int) :
    Project × Except NumeralFault (List Problem) :=
  finish ((Assembly.assembleFile file).run.run (Assembly.start p maxDepth))

/-- The files in the order in which they are assembled: each after those it names, or as they stand
if some name each other. -/
def assemblyOrder (p : Project) : List String :=
  match p.fileOrder.order with
  | some order => order.filter fun file => p.files.has file
  | none => p.files.keys

/-- What is worth a warning before an assembly: files that name each other. -/
def assemblyWarnings (p : Project) : List String :=
  p.fileOrder.cycles.map fun cycle => "Files reference each other: " ++ Cause.loop cycle

/-- Assembles all files of a project. -/
def assemble (p : Project) (maxDepth : Int) : Project × Except NumeralFault (List Problem) :=
  finish ((Assembly.assembleFiles p.assemblyOrder).run.run (Assembly.start p maxDepth))

end Project

end DesignTokens

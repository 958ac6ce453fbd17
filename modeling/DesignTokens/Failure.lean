import DesignTokens.Manifest.Fault
import DesignTokens.Merge.Combine
import DesignTokens.Reference.Problem

/-! # Failures

What ends a piece of work, with the context in which it happened.  A message begins with the line
of its context if there is one; the items of a failure with items follow, one a line.
-/

namespace DesignTokens

/-- Where a failure happened. -/
structure Context where
  file : Option String
  path : Option String
  permutation : Option String
  deriving DecidableEq, Repr, Inhabited

namespace Context

def ofFile (file : String) : Context := ⟨some file, none, none⟩

/-- A text that is given and not empty. -/
def given (text : Option String) : Option String := text.filter (· ≠ "")

def text (c : Context) : String :=
  Text.joinWith " "
    ((given c.file).toList ++ ((given c.path).map ("at " ++ ·)).toList ++
      ((given c.permutation).map fun id => "(permutation " ++ id ++ ")").toList)

end Context

/-- Why a token or manifest file gives no document. -/
inductive FileFault where
  | unsupported (suffix : String)
  | notFound (path : String)
  | unreadable (path : String)
  | invalid (path : String)
  | notAnObject (kind : Value.Kind)
  | unreadableManifest (path : String)
  | invalidManifest (path : String)
  | other (message : String)
  deriving Inhabited

namespace FileFault

/-- The wording of a fault of a file. -/
def message : FileFault → String
  | unsupported suffix =>
    "Unsupported token file type: " ++ (if suffix = "" then "<none>" else suffix)
  | notFound path => "Token file not found: " ++ path
  | unreadable path => "Cannot read token file " ++ path ++ ":"
  | invalid path => "Invalid syntax in " ++ path ++ ":"
  | notAnObject kind => "Token file must contain an object, got " ++ kind.name
  | unreadableManifest path => "Cannot read manifest " ++ path ++ ":"
  | invalidManifest path => "Invalid manifest syntax in " ++ path ++ ":"
  | other message => message

end FileFault

/-- Why a configuration is rejected. -/
inductive ConfigFault where
  | unreadable
  | notATable
  | wrongType (key expected found : String)
  | belowOne (key : String)
  | other (message : String)
  deriving Inhabited

namespace ConfigFault

/-- The wording of a fault of a configuration. -/
def message : ConfigFault → String
  | unreadable => "Cannot load config:"
  | notATable => "[resolver] must be a table"
  | wrongType key expected found => "'" ++ key ++ "' must be " ++ expected ++ ", got " ++ found
  | belowOne key => "'" ++ key ++ "' must be at least 1"
  | other message => message

end ConfigFault

/-- What a value was taken for. -/
inductive Role where
  | record
  | table
  | collection
  | name
  deriving DecidableEq, Repr, Inhabited

namespace Role

def noun : Role → String
  | record => "record"
  | table => "table"
  | collection => "collection"
  | name => "name"

end Role

/-- What ends a piece of work. -/
inductive Failure where
  | general (message : String) (context : Option Context)
  | manifest (title : String) (faults : List ManifestFault) (context : Option Context)
  | conflict (first : Conflict) (others : List Conflict)
  | resolution (title : String) (problems : List Problem) (context : Option Context)
  | file (fault : FileFault) (context : Option Context)
  | config (fault : ConfigFault) (context : Option Context)
  /-- Fields were to be merged by a type that is no name. -/
  | typeWithoutName (type : Value)
  | misused (v : Value) (role : Role)
  | missingMember (key : String)
  | noOption
  | unnamedSet (name : Value)
  | notTexts (v : Value)
  | numeral (fault : NumeralFault)
  | badPattern (pattern : String)
  | notUtf8 (path : String)
  deriving Inhabited

namespace Failure

/-- The items of a list, one a line. -/
def withItems (title : String) (items : List String) : String :=
  Text.joinWith "\n" (title :: items.map ("  - " ++ ·))

/-- The message of a failure without its context. -/
def bareMessage : Failure → String
  | general message _ => message
  | manifest title faults _ => withItems title (faults.map ManifestFault.text)
  | conflict first others => MergeError.conflictMessage first others
  | resolution title problems _ => withItems title (problems.map Problem.text)
  | file fault _ => fault.message
  | config fault _ => fault.message
  | typeWithoutName type => "no type name: " ++ type.shown
  | misused v role => "no " ++ role.noun ++ ": " ++ v.shown
  | missingMember key => "no member " ++ Text.quoted key
  | noOption => "no option"
  | unnamedSet name => "no name of a set: " ++ name.shown
  | notTexts v => "not a list of texts: " ++ v.shown
  | numeral (.unreadable segment) => "no number: " ++ Text.quoted segment
  | numeral (.unwritable _) => "no numeral"
  | badPattern pattern => "two stars inside a name: " ++ Text.quoted pattern
  | notUtf8 path => "not UTF-8: " ++ path

/-- The context of a failure. -/
def context : Failure → Option Context
  | general _ context => context
  | manifest _ _ context => context
  | resolution _ _ context => context
  | file _ context => context
  | config _ context => context
  | _ => none

def message (f : Failure) : String :=
  match f.context with
  | some context => context.text ++ "\n" ++ f.bareMessage
  | none => f.bareMessage

/-- The context of a file that has a name. -/
def fileContext (file : Option String) : Option Context :=
  (Context.given file).map Context.ofFile

/-- A rejected manifest, unless one of its faults cannot be put into words. -/
def ofManifest (title : String) (faults : List ManifestFault) (file : Option String) : Failure :=
  match faults.findSome? ManifestFault.unwritable? with
  | some n => .numeral (.unwritable n)
  | none => .manifest title faults (fileContext file)

def ofProblems (title : String) (problems : List Problem) (permutation : Option String) :
    Failure :=
  .resolution title problems
    ((Context.given permutation).map fun id => ⟨none, none, some id⟩)

def ofMerge : MergeError → Failure
  | .conflicts first others => .conflict first others
  | .typeWithoutName type => .typeWithoutName type

end Failure

end DesignTokens

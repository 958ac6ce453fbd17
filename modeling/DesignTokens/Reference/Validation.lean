import DesignTokens.Reference.Resolution

/-! # Validation

Validation reports broken references and leaves the tree as it is.  Pointers are followed without
assembling what they lead to.
-/

namespace DesignTokens

namespace Validation

/-- The problem with an alias, if there is one. -/
def aliasProblem? (g : Group) (t : Token) (file : Option String) (named : String) :
    Option Problem :=
  match g.findToken? named with
  | some _ => none
  | none =>
    some ⟨.missing, t.path, .aliasOfNothing named, some (Alias.ofPath named), file⟩

/-- The tree that a pointer leads to. -/
def treeOf (project : Option Project) (g : Group) (file : Option String) (p : Pointer) :
    Except Cause Group :=
  match p.file with
  | none => .ok g
  | some name =>
    match project.bind fun project => project.file? name file with
    | some target => .ok target.tree
    | none => .error (.fileNotLoaded name)

/-- What is wrong with a pointer.  A token that has pointers of its own is taken to have the part
that is asked for. -/
def pointerFault? (project : Option Project) (g : Group) (file : Option String) (ref : String) :
    Except NumeralFault (Option (ProblemKind × Cause)) :=
  match Pointer.parse ref with
  | .error fault => .ok (some (.invalid, .pointer fault))
  | .ok p =>
    match (treeOf project g file p).bind p.target with
    | .error cause => .ok (some (.missing, cause))
    | .ok (_, target, rest) =>
      if target.pointers.isEmpty then
        (Pointer.descend ref target.value rest).map fun
          | .ok _ => none
          | .error cause => some (.missing, cause)
      else .ok none

/-- The problems with the pointers of a token. -/
def pointerProblems (project : Option Project) (g : Group) (file : Option String) (t : Token) :
    List String → Except NumeralFault (List Problem)
  | [] => .ok []
  | ref :: refs => do
    let fault ← pointerFault? project g file ref
    let others ← pointerProblems project g file t refs
    return (fault.map fun f => ⟨f.1, t.path, f.2, some ref, file⟩).toList ++ others

/-- The problems with the references of a token. -/
def tokenProblems (project : Option Project) (g : Group) (file : Option String) (t : Token) :
    Except NumeralFault (List Problem) := do
  let malformed : List Problem :=
    t.malformed.map fun text => ⟨.invalid, t.path, .malformed text, some text, file⟩
  let aliases := t.references.filterMap (aliasProblem? g t file)
  let pointers ← pointerProblems project g file t t.pointers
  return malformed ++ aliases ++ pointers

/-- The problems with the references of some tokens. -/
def problemsOfTokens (project : Option Project) (g : Group) (file : Option String) :
    List Token → Except NumeralFault (List Problem)
  | [] => .ok []
  | t :: tokens => do
    let first ← tokenProblems project g file t
    let others ← problemsOfTokens project g file tokens
    return first ++ others

/-- The problems with the cycles of a tree: one for each member that is a token. -/
def cycleProblems (g : Group) (file : Option String) : List Problem :=
  g.aliasCycles.cycles.flatMap fun cycle =>
    (cycle.filter fun member => (g.findToken? member).isSome).map fun member =>
      ⟨.circular, member, .cycle cycle, some (Alias.ofPath member), file⟩

end Validation

namespace Group

/-- The broken references of a tree.  Without a project, no other file can be reached. -/
def validate (g : Group) (project : Option Project) (file : Option String) :
    Except NumeralFault (List Problem) := do
  let problems ← Validation.problemsOfTokens project g file g.tokens
  return problems ++ Validation.cycleProblems g file

end Group

end DesignTokens

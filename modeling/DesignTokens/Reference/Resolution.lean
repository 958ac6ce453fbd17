import DesignTokens.Reference.Assembly
import DesignTokens.Token.Dependencies
import DesignTokens.Token.Document

/-! # Resolution

Resolution replaces every alias by what its token stands for.  Tokens are taken in an order in which
each comes after the tokens it refers to; members of a cycle fail at once.  The outcome of a token
and the length of its longest chain of aliases are kept in a `Resolver`, and a token with an outcome
is not looked at again.  An integer without a numeral that has to stand inside a text ends the
pass where it is.
-/

namespace DesignTokens

/-- What a resolver knows: the outcome of each token, nothing meaning success, the length of its
longest chain of aliases, and the cycles found last. -/
structure Resolver where
  maxDepth : Int
  outcomes : Table String (Option ProblemKind)
  depths : Table String Nat
  cycles : Option (CycleReport String)
  deriving Inhabited

namespace Resolver

def defaultMaxDepth : Int := 10

def start (maxDepth : Int) : Resolver := ⟨maxDepth, [], [], none⟩

end Resolver

/-! ## Substitution -/

namespace Group

/-- What an alias stands for. -/
def meaning (g : Group) (path : String) : Except Obstacle Value :=
  match g.findToken? path with
  | some t => .ok t.resolvedValue
  | none => .error (.cause (.vanished path))

end Group

namespace Value

/-- The form of a value inside a text. -/
def textForm : Value → Except Obstacle String
  | .bool b => .ok (if b then "true" else "false")
  | .text s => .ok s
  | .int n =>
    if isWritable n then .ok (Value.int n).plain else .error (.numeral (.unwritable n))
  | .real x => .ok (Value.real x).plain
  | v => .error (.cause (.notInText v.kind))

/-- A text in which each braced run is replaced by the form of what it means. -/
def substitutePieces (meaning : String → Except Obstacle Value) :
    List Alias.Piece → Except Obstacle String
  | [] => .ok ""
  | .plain c :: rest => do
    let others ← substitutePieces meaning rest
    return String.ofList [c] ++ others
  | .braced inner :: rest => do
    let v ← meaning (String.ofList (Alias.pathOf (Alias.withBraces inner)))
    let first ← v.textForm
    let others ← substitutePieces meaning rest
    return first ++ others

mutual

/-- A value in which every alias is replaced by what it means.  A text that is one alias and nothing
else becomes the meaning itself; inside a longer text stands its form. -/
def substitute (meaning : String → Except Obstacle Value) : Value → Except Obstacle Value
  | .text s =>
    if Alias.isWhole s.toList then meaning (Alias.path s)
    else (substitutePieces meaning (Alias.pieces s.toList)).map .text
  | .list items => (substituteItems meaning items).map .list
  | .object members => (substituteMembers meaning members).map .object
  | v => .ok v

/-- The items of a list with their aliases replaced. -/
def substituteItems (meaning : String → Except Obstacle Value) :
    List Value → Except Obstacle (List Value)
  | [] => .ok []
  | v :: items => do
    let first ← substitute meaning v
    let others ← substituteItems meaning items
    return first :: others

/-- The members of an object with their aliases replaced. -/
def substituteMembers (meaning : String → Except Obstacle Value) :
    List (String × Value) → Except Obstacle (List (String × Value))
  | [] => .ok []
  | (key, v) :: members => do
    let first ← substitute meaning v
    let others ← substituteMembers meaning members
    return (key, first) :: others

end

end Value

/-! ## One token -/

/-- The check of the references of one token: the problems so far, the first kind of failure and
the length of the longest chain. -/
structure Check where
  depths : Table String Nat
  problems : List Problem
  failure : Option ProblemKind
  depth : Nat

namespace Check

def fail (c : Check) (path : String) (kind : ProblemKind) (cause : Cause)
    (reference : Option String) : Check :=
  { c with
    problems := c.problems ++ [⟨kind, path, cause, reference, none⟩]
    failure := c.failure.or (some kind) }

def malformed (path : String) (c : Check) (text : String) : Check :=
  c.fail path .invalid (.malformed text) (some text)

def pointer (path : String) (c : Check) (ref : String) : Check :=
  c.fail path .missing (.leftPointer ref) (some ref)

/-- How an alias stands when its token is a node of the tree. -/
def outcomeOf (outcomes : Table String (Option ProblemKind)) (named : String) (target : Token) :
    Option ProblemKind :=
  match outcomes.get? named with
  | some outcome => outcome
  | none => if target.resolved then none else some .missing

/-- An alias of the token, by the path that it names. -/
def followAlias (g : Group) (outcomes : Table String (Option ProblemKind)) (path : String)
    (c : Check) (named : String) : Check :=
  match g.find? named with
  | none => c.fail path .missing (.aliasOfNothing named) (some (Alias.ofPath named))
  | some (.group _ _) => c.fail path .missing (.aliasOfGroup named) (some (Alias.ofPath named))
  | some (.token target) =>
    let known := outcomes.has named
    let c :=
      if !known && target.resolved then { c with depths := c.depths.putNew named 0 } else c
    match outcomeOf outcomes named target with
    | some kind => c.fail path kind (.dependsOn named) (some (Alias.ofPath named))
    | none => { c with depth := max c.depth ((c.depths.get? named).getD 0 + 1) }

/-- The check of a token after all its references. -/
def followed (g : Group) (r : Resolver) (t : Token) : Check :=
  t.references.foldl (followAlias g r.outcomes t.path)
    (t.pointers.foldl (pointer t.path)
      (t.malformed.foldl (malformed t.path) ⟨r.depths, [], none, 0⟩))

end Check

/-- A pass over the aliases of a tree.  A pass that is halted changes nothing any more. -/
structure Pass where
  tree : Group
  resolver : Resolver
  problems : List Problem
  halted : Option NumeralFault

namespace Pass

/-- The pass after the turn of a token that is resolved and refers to nothing. -/
def accept (p : Pass) (path : String) : Pass :=
  { p with
    resolver :=
      { p.resolver with
        outcomes := p.resolver.outcomes.put path none
        depths := p.resolver.depths.put path 0 } }

/-- The pass after a turn that ended with a check. -/
def record (p : Pass) (place : Place) (after : Token) (c : Check) : Pass :=
  { p with
    tree := p.tree.modifyToken place fun _ => after
    resolver :=
      { p.resolver with
        outcomes := p.resolver.outcomes.put after.path c.failure
        depths := c.depths.put after.path c.depth }
    problems := p.problems ++ c.problems }

/-- The pass after a turn that came to no end. -/
def halt (p : Pass) (c : Check) (fault : NumeralFault) : Pass :=
  { p with resolver := { p.resolver with depths := c.depths }, halted := some fault }

/-- The turn of a token that has something to resolve. -/
def turn (p : Pass) (place : Place) (t : Token) : Pass :=
  let c := Check.followed p.tree p.resolver t
  let failed := { t with resolved := false }
  let limit := p.resolver.maxDepth
  if c.failure.isSome then p.record place failed c
  else if (c.depth : Int) > limit then
    if isWritable limit then p.record place failed (c.fail t.path .depth (.tooDeep limit) none)
    else p.halt c (.unwritable limit)
  else
    match t.value.substitute p.tree.meaning with
    | .ok v => p.record place { t with resolved := true, resolvedValue := v } c
    | .error (.cause cause) => p.record place failed (c.fail t.path .invalid cause none)
    | .error (.numeral fault) => p.halt c fault

/-- Resolves the token at a place. -/
def resolveToken (p : Pass) (place : Place) : Pass :=
  match p.halted, p.tree.tokenAt? place with
  | none, some t =>
    if t.resolved && t.references.isEmpty then p.accept t.path
    else p.turn place t
  | _, _ => p

/-- Marks a member of a cycle, if it is a token. -/
def failMember (cycle : List String) (p : Pass) (member : String) : Pass :=
  match p.tree.findToken? member with
  | none => p
  | some _ =>
    { p with
      resolver :=
        { p.resolver with
          outcomes := p.resolver.outcomes.put member (some .circular) }
      problems := p.problems ++
        [⟨.circular, member, .cycle cycle, some (Alias.ofPath member), none⟩] }

/-- Resolves the token with a path, unless it has an outcome. -/
def resolvePath (p : Pass) (path : String) : Pass :=
  if p.resolver.outcomes.has path then p
  else
    match p.tree.findToken? path with
    | none => p
    | some _ => p.resolveToken (p.tree.placeOf path)

/-- Resolves the token at a place, unless its path has an outcome. -/
def resolvePlace (p : Pass) (place : Place) : Pass :=
  match p.tree.tokenAt? place with
  | none => p
  | some t => if p.resolver.outcomes.has t.path then p else p.resolveToken place

def outcome (p : Pass) : Except NumeralFault (List Problem) :=
  match p.halted with
  | none => .ok p.problems
  | some fault => .error fault

end Pass

/-! ## All tokens -/

namespace Group

/-- The order in which the tokens with aliases are resolved.  Where there are cycles, it is the
order of the rest of the graph. -/
def resolutionOrder (g : Group) : List String :=
  let report := g.aliasCycles
  match report.order with
  | some order => order
  | none =>
    let remainder : Graph String := g.aliasGraph.filter fun p => !report.cyclic.contains p.1
    remainder.findCycles.order.getD []

end Group

namespace Resolver

/-- Resolves the aliases of a tree. -/
def resolve (r : Resolver) (g : Group) :
    Group × Resolver × Except NumeralFault (List Problem) :=
  let report := g.aliasCycles
  let p : Pass := ⟨g, { r with cycles := some report }, [], none⟩
  let p := report.cycles.foldl (fun p cycle => cycle.foldl (Pass.failMember cycle) p) p
  let p := g.resolutionOrder.foldl Pass.resolvePath p
  let p := (g.placedTokens.map Prod.fst).foldl Pass.resolvePlace p
  (p.tree, p.resolver, p.outcome)

/-- Assembles a file of a project and resolves its aliases.  A problem with a reference that the
assembly reported already is not reported again. -/
def run (r : Resolver) (project : Project) (file : String) :
    Project × Resolver × Except NumeralFault (List Problem) :=
  match project.assembleFile file r.maxDepth with
  | (project, .error e) => (project, r, .error e)
  | (project, .ok problems) =>
    match project.tree? file with
    | none => (project, r, .ok problems)
    | some tree =>
      let reported := problems.map fun e => (e.path, e.reference)
      let (tree, r, more) := r.resolve tree
      let all := more.map fun found =>
        problems ++ found.filter fun e => !reported.contains (e.path, e.reference)
      (project.setTree file tree, r, all)

end Resolver

namespace Group

def resolvedValues (g : Group) : Table String Value :=
  Table.ofPairs ((g.tokens.filter Token.resolved).map fun t => (t.path, t.resolvedValue))

/-- The document in which all references of a document are replaced, and the problems. -/
def resolveDocument (document : Value) (maxDepth : Int) :
    Except NumeralFault (Value × List Problem) :=
  let (project, _, problems) :=
    (Resolver.start maxDepth).run (Project.single (Group.build document)) ""
  problems.map fun problems =>
    (((project.tree? "").map (Group.toDocument true)).getD .null, problems)

end Group

end DesignTokens

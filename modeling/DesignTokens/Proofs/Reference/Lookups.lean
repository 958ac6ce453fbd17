import DesignTokens.Proofs.Reference.Results
import DesignTokens.Proofs.Resolution.Clean

/-!
# The lookups of a substitution

`Value.trace` is the substitution with a list of the paths that it looks up, written
down before each lookup.  Its outcome is the one of `Value.substitute`, and it looks up
the runs of the value one after the other until one of them fails
(`follows_trace`).

The runs that the scan takes for aliases are `Value.found`.  In a value in which nothing
is malformed they are all the runs exactly when no `$ref` member holds one
(`found_eq_runs_iff`), and then the graph of the aliases covers every lookup
(`lookups_eq_aliases`).  An alias in a list below `$ref` is looked up and not found
(`not_lookups_eq_aliases`).
-/

namespace DesignTokens

namespace Value

/-! ### Lookups -/

/-- Work that writes down the paths it looks up. -/
abbrev Tracing := ExceptT Obstacle (StateM (List String))

/-- What a path means, after the path is written down. -/
def lookUp (f : String → Except Obstacle Value) (path : String) : Tracing Value := do
  modify (· ++ [path])
  liftExcept (f path)

/-- A text in which each braced run is replaced by the form of what it means. -/
def tracePieces (f : String → Except Obstacle Value) : List Alias.Piece → Tracing String
  | [] => return ""
  | .plain c :: rest => do
    let others ← tracePieces f rest
    return String.ofList [c] ++ others
  | .braced inner :: rest => do
    let v ← lookUp f (String.ofList (Alias.pathOf (Alias.withBraces inner)))
    let first ← liftExcept v.textForm
    let others ← tracePieces f rest
    return first ++ others

mutual

/-- A value in which every alias is replaced by what it means. -/
def trace (f : String → Except Obstacle Value) : Value → Tracing Value
  | .text s =>
    if Alias.isWhole s.toList then lookUp f (Alias.path s)
    else do return .text (← tracePieces f (Alias.pieces s.toList))
  | .list items => do return .list (← traceItems f items)
  | .object members => do return .object (← traceMembers f members)
  | v => return v

def traceItems (f : String → Except Obstacle Value) : List Value → Tracing (List Value)
  | [] => return []
  | v :: items => do
    let first ← trace f v
    let others ← traceItems f items
    return first :: others

def traceMembers (f : String → Except Obstacle Value) :
    List (String × Value) → Tracing (List (String × Value))
  | [] => return []
  | (key, v) :: members => do
    let first ← trace f v
    let others ← traceMembers f members
    return (key, first) :: others

end

/-- The paths that the substitution looks up. -/
def lookups (v : Value) (f : String → Except Obstacle Value) : List String :=
  ((v.trace f).run.run []).2

/-! ### Runs -/

def runPath? : Alias.Piece → Option String
  | .plain _ => none
  | .braced inner => some (Alias.runPath inner)

mutual

/-- The paths of the braced runs in the texts of a value, in whatever object they stand. -/
def runs : Value → List String
  | .text s => (Alias.pieces s.toList).filterMap runPath?
  | .list items => runsOfItems items
  | .object members => runsOfMembers members
  | _ => []

def runsOfItems : List Value → List String
  | [] => []
  | v :: items => v.runs ++ runsOfItems items

def runsOfMembers : List (String × Value) → List String
  | [] => []
  | (_, v) :: members => v.runs ++ runsOfMembers members

end

/-- The aliases of a value as the scan comes by them, before it drops the repeated ones. -/
def found (v : Value) : List String := v.occurrences.filterMap Occurrence.aliasPath?

/-- No `$ref` member holds a run. -/
def RefsHoldNoRun (v : Value) : Prop :=
  v.EveryObject fun members => ∀ m ∈ members, m.1 = pointerKey → m.2.runs = []

instance (v : Value) : Decidable v.RefsHoldNoRun :=
  inferInstanceAs (Decidable (v.EveryObject fun members =>
    ∀ m ∈ members, m.1 = pointerKey → m.2.runs = []))

variable {f : String → Except Obstacle Value} {α β : Type}

/-! ### The trace -/

/-- Work with an outcome that looks up paths one after the other, all of them unless it fails. -/
def Follows (m : Tracing α) (outcome : Except Obstacle α) (paths : List String) : Prop :=
  ∀ log, ∃ made, m.run.run log = (outcome, log ++ made) ∧ made <+: paths ∧
    ∀ a, outcome = .ok a → made = paths

namespace Follows

theorem pure (a : α) : Follows (Pure.pure a) (.ok a) [] :=
  fun log => ⟨[], by rw [List.append_nil]; rfl, List.prefix_refl _, fun _ _ => rfl⟩

theorem liftExcept (outcome : Except Obstacle α) :
    Follows (liftExcept outcome : Tracing α) outcome [] := by
  intro log
  refine ⟨[], ?_, List.prefix_refl _, fun _ _ => rfl⟩
  rw [List.append_nil]
  cases outcome with
  | error cause => rfl
  | ok a => rfl

theorem lookUp (f : String → Except Obstacle Value) (path : String) :
    Follows (lookUp f path) (f path) [path] := by
  intro log
  refine ⟨[path], ?_, List.prefix_refl _, fun _ _ => rfl⟩
  unfold Value.lookUp
  cases h : f path with
  | error cause => rfl
  | ok x => rfl

theorem bind {m : Tracing α} {outcome : Except Obstacle α} {paths : List String}
    {next : α → Tracing β} {rest : α → Except Obstacle β} {more : List String}
    (hm : Follows m outcome paths) (hnext : ∀ a, Follows (next a) (rest a) more) :
    Follows (m >>= next) (outcome >>= rest) (paths ++ more) := by
  intro log
  obtain ⟨made, hrun, hfront, hall⟩ := hm log
  have hbind : (m >>= next).run.run log =
      match m.run.run log with
      | (.ok a, log) => (next a).run.run log
      | (.error cause, log) => (.error cause, log) := by
    rw [ExceptT.run_bind, StateT.run_bind]
    generalize m.run.run log = r
    obtain ⟨cause | a, log⟩ := r
    · rfl
    · rfl
  rw [hbind, hrun]
  cases outcome with
  | error cause =>
    refine ⟨made, rfl, hfront.trans (List.prefix_append _ _), ?_⟩
    intro b hb
    cases hb
  | ok a =>
    obtain rfl := hall a rfl
    obtain ⟨after, hafter, hfront', hall'⟩ := hnext a (log ++ made)
    refine ⟨made ++ after, ?_, (List.prefix_append_right_inj _).mpr hfront', ?_⟩
    · rw [← List.append_assoc]
      exact hafter
    · intro b hb
      rw [hall' b hb]

theorem map {m : Tracing α} {outcome : Except Obstacle α} {paths : List String} (g : α → β)
    (hm : Follows m outcome paths) :
    Follows (m >>= fun a => Pure.pure (g a)) (outcome.map g) paths := by
  have h := hm.bind fun a => pure (g a)
  rw [List.append_nil] at h
  cases outcome with
  | error cause => exact h
  | ok a => exact h

end Follows

theorem follows_tracePieces (pieces : List Alias.Piece) :
    Follows (tracePieces f pieces) (substitutePieces f pieces) (pieces.filterMap runPath?) := by
  induction pieces with
  | nil => exact .pure _
  | cons piece rest ih =>
    cases piece with
    | plain c => exact ih.map _
    | braced inner =>
      rw [tracePieces, substitutePieces]
      refine (Follows.lookUp f _).bind fun x => ?_
      refine (Follows.liftExcept _).bind fun form => ?_
      exact ih.map _

theorem follows_traceItems {items : List Value}
    (h : ∀ v ∈ items, Follows (v.trace f) (v.substitute f) v.runs) :
    Follows (traceItems f items) (substituteItems f items) (runsOfItems items) := by
  induction items with
  | nil => exact .pure _
  | cons v items ih =>
    obtain ⟨hv, hitems⟩ := List.forall_mem_cons.mp h
    exact hv.bind fun first => (ih hitems).map _

theorem follows_traceMembers {members : List (String × Value)}
    (h : ∀ m ∈ members, Follows (m.2.trace f) (m.2.substitute f) m.2.runs) :
    Follows (traceMembers f members) (substituteMembers f members) (runsOfMembers members) := by
  induction members with
  | nil => exact .pure _
  | cons m members ih =>
    obtain ⟨hm, hmembers⟩ := List.forall_mem_cons.mp h
    exact hm.bind fun first => (ih hmembers).map _

theorem runs_of_oneRun {s : String} {inner : List Char} (h : Alias.IsOneRun s.toList inner) :
    (Value.text s).runs = [Alias.path s] := by
  rw [h.path_eq, runs]
  rcases h with ⟨hinner, he | he⟩
  · have hp := Alias.pieces_withBraces_append [] hinner
    rw [List.append_nil] at hp
    rw [he, hp]
    rfl
  · rw [he, Alias.pieces_withBraces_append _ hinner]
    rfl

/-- The trace of a value comes to what the substitution comes to, and looks up the runs of the
value. -/
theorem follows_trace (v : Value) : Follows (v.trace f) (v.substitute f) v.runs := by
  induction v using inductionOn with
  | text s =>
    rw [trace, substitute]
    split
    · rename_i hw
      obtain ⟨inner, hone⟩ := Alias.isWhole_iff_isOneRun.mp hw
      rw [runs_of_oneRun hone]
      exact .lookUp f _
    · exact (follows_tracePieces _).map _
  | list items ih => exact (follows_traceItems ih).map _
  | object members ih => exact (follows_traceMembers ih).map _
  | _ => exact .pure _

/-! ### Runs that the scan finds -/

theorem mem_runs_list {items : List Value} {path : String} :
    path ∈ (Value.list items).runs ↔ ∃ v ∈ items, path ∈ v.runs := by
  rw [runs]
  induction items with
  | nil => simp [runsOfItems]
  | cons v items ih => rw [runsOfItems, List.mem_append, ih]; simp

theorem mem_runs_object {members : List (String × Value)} {path : String} :
    path ∈ (Value.object members).runs ↔ ∃ m ∈ members, path ∈ m.2.runs := by
  rw [runs]
  induction members with
  | nil => simp [runsOfMembers]
  | cons m members ih => rw [runsOfMembers, List.mem_append, ih]; simp

theorem refsHoldNoRun_of_runs_eq_nil {v : Value} (h : v.runs = []) : v.RefsHoldNoRun := by
  induction v using inductionOn with
  | list items ih =>
    refine everyObject_list.mpr fun v hv => ih v hv ?_
    exact List.eq_nil_iff_forall_not_mem.mpr fun path hpath =>
      List.not_mem_nil (h ▸ mem_runs_list.mpr ⟨v, hv, hpath⟩)
  | object members ih =>
    have hmember : ∀ m ∈ members, m.2.runs = [] := fun m hm =>
      List.eq_nil_iff_forall_not_mem.mpr fun path hpath =>
        List.not_mem_nil (h ▸ mem_runs_object.mpr ⟨m, hm, hpath⟩)
    exact everyObject_object.mpr
      ⟨fun m hm _ => hmember m hm, fun m hm => ih m hm (hmember m hm)⟩
  | _ => trivial

/-- In a text in which nothing is malformed, the scan finds every run. -/
theorem found_text {s : String} (h : ∀ m, .malformed m ∉ Occurrence.ofText s) :
    (Value.text s).found = (Value.text s).runs := by
  have hpiece : ∀ piece ∈ Alias.pieces s.toList,
      (Occurrence.ofPiece piece).bind Occurrence.aliasPath? = runPath? piece := by
    intro piece hp
    cases piece with
    | plain c => rfl
    | braced inner =>
      have hmem : ∀ o, Occurrence.ofPiece (.braced inner) = some o → o ∈ Occurrence.ofText s :=
        fun o ho => List.mem_append_left _ (List.mem_filterMap.mpr ⟨_, hp, ho⟩)
      rw [Occurrence.ofPiece] at hmem ⊢
      split at hmem
      · rename_i hwell
        rw [if_pos hwell]
        rfl
      · exact absurd (hmem _ rfl) (h _)
  have hstray : ∀ b : Bool,
      (if b then [Occurrence.malformed s] else []).filterMap Occurrence.aliasPath? = [] := by
    intro b
    cases b <;> rfl
  rw [found, occurrences, Occurrence.ofText, List.filterMap_append, hstray, List.append_nil,
    List.filterMap_filterMap, runs]
  exact List.filterMap_congr hpiece

theorem append_eq_append_iff_of_sublist {a b c d : List α} (hab : a.Sublist b) (hcd : c.Sublist d) :
    a ++ c = b ++ d ↔ a = b ∧ c = d := by
  constructor
  · intro h
    have hlength := congrArg List.length h
    rw [List.length_append, List.length_append] at hlength
    have hle := hab.length_le
    have hle' := hcd.length_le
    exact ⟨hab.eq_of_length (by omega), hcd.eq_of_length (by omega)⟩
  · rintro ⟨rfl, rfl⟩
    rfl

/-- The scan finds runs of the value, in their order, and all of them if no `$ref` member holds
one. -/
def FindsUnhidden (v : Value) : Prop :=
  v.found.Sublist v.runs ∧ (v.found = v.runs ↔ v.RefsHoldNoRun)

theorem findsUnhidden_list {items : List Value} (h : ∀ v ∈ items, v.FindsUnhidden) :
    (Value.list items).FindsUnhidden := by
  unfold FindsUnhidden RefsHoldNoRun
  rw [everyObject_list, found, occurrences, runs]
  induction items with
  | nil => exact ⟨.slnil, iff_of_true rfl fun _ hv => absurd hv List.not_mem_nil⟩
  | cons v items ih =>
    obtain ⟨⟨hsub, hiff⟩, hitems⟩ := List.forall_mem_cons.mp h
    obtain ⟨ihsub, ihiff⟩ := ih hitems
    unfold found at hsub hiff
    rw [occurrencesOfItems, List.filterMap_append, runsOfItems,
      append_eq_append_iff_of_sublist hsub ihsub, List.forall_mem_cons, ihiff]
    exact ⟨hsub.append ihsub, and_congr_left fun _ => hiff⟩

theorem findsUnhidden_object {members : List (String × Value)}
    (h : ∀ m ∈ members, m.1 ≠ pointerKey → m.2.FindsUnhidden) :
    (Value.object members).FindsUnhidden := by
  have hpointer : (((pointerOf? members).map Occurrence.pointer).toList).filterMap
      Occurrence.aliasPath? = [] := by
    cases pointerOf? members with
    | none => rfl
    | some ref => rfl
  unfold FindsUnhidden RefsHoldNoRun
  rw [everyObject_object, found, occurrences, List.filterMap_append, hpointer, List.nil_append,
    runs]
  clear hpointer
  induction members with
  | nil => exact ⟨.slnil, by simp [occurrencesOfMembers, runsOfMembers]⟩
  | cons m members ih =>
    obtain ⟨key, v⟩ := m
    obtain ⟨hv, hmembers⟩ := List.forall_mem_cons.mp h
    obtain ⟨ihsub, ihiff⟩ := ih hmembers
    have hhere : ((if key = pointerKey then [] else v.occurrences).filterMap
          Occurrence.aliasPath?).Sublist v.runs ∧
        ((if key = pointerKey then [] else v.occurrences).filterMap Occurrence.aliasPath? =
          v.runs ↔ (key = pointerKey → v.runs = []) ∧ v.RefsHoldNoRun) := by
      by_cases hkey : key = pointerKey
      · rw [if_pos hkey]
        refine ⟨List.nil_sublist _, ?_, fun h => (h.1 hkey).symm⟩
        exact fun h => ⟨fun _ => h.symm, refsHoldNoRun_of_runs_eq_nil h.symm⟩
      · rw [if_neg hkey]
        obtain ⟨hsub, hiff⟩ := hv hkey
        exact ⟨hsub, hiff.trans (and_iff_right fun h => absurd h hkey).symm⟩
    rw [occurrencesOfMembers, List.filterMap_append, runsOfMembers,
      append_eq_append_iff_of_sublist hhere.1 ihsub, List.forall_mem_cons, List.forall_mem_cons,
      and_and_and_comm, ihiff]
    exact ⟨hhere.1.append ihsub, and_congr_left fun _ => hhere.2⟩

theorem findsUnhidden {v : Value} (h : ∀ s, .malformed s ∉ v.occurrences) : v.FindsUnhidden := by
  induction v using inductionOn with
  | text s =>
    have he := found_text h
    exact ⟨he ▸ List.Sublist.refl _, iff_of_true he trivial⟩
  | list items ih =>
    exact findsUnhidden_list fun v hv => ih v hv fun s hs =>
      h s (mem_occurrences_list.mpr ⟨v, hv, hs⟩)
  | object members ih =>
    exact findsUnhidden_object fun m hm hkey => ih m hm fun s hs =>
      h s (mem_occurrences_object.mpr (Or.inr ⟨m, hm, hkey, hs⟩))
  | _ => exact ⟨.slnil, iff_of_true rfl trivial⟩

theorem found_eq_runs_iff {v : Value} (hmalformed : (Scan.of v).malformed = []) :
    v.found = v.runs ↔ v.RefsHoldNoRun :=
  (findsUnhidden fun _ hs => List.not_mem_nil (hmalformed ▸ mem_malformed_iff.mpr hs)).2

/-- **The substitution looks up the aliases that the scan reports**, each of them if it goes
through, and none that is not among them in any case. -/
theorem lookups_eq_aliases {v : Value} (hmalformed : (Scan.of v).malformed = [])
    (hrefs : v.RefsHoldNoRun) (f : String → Except Obstacle Value) :
    ((v.trace f).run.run []).1 = v.substitute f ∧ v.lookups f <+: v.found ∧
      (∀ a ∈ v.lookups f, a ∈ (Scan.of v).aliases) ∧
        ∀ w, v.substitute f = .ok w → (v.lookups f).eraseDups = (Scan.of v).aliases := by
  obtain ⟨made, hrun, hfront, hall⟩ := follows_trace (f := f) v []
  have hlookups : v.lookups f = made := congrArg Prod.snd hrun
  have hfound := (found_eq_runs_iff hmalformed).mpr hrefs
  rw [← hfound] at hfront hall
  rw [hlookups]
  refine ⟨congrArg Prod.fst hrun, hfront, ?_, ?_⟩
  · exact fun a ha => List.mem_eraseDups.mpr (hfront.subset ha)
  · intro w hw
    rw [hall w hw]
    rfl

/-- A value with a list in its `$ref` member and an alias in the list. -/
def hiddenAlias : Value :=
  .object [("$ref", .list [.text "\x7bz\x7d"]), ("x", .text "\x7bo\x7d")]

/-- Nothing in it is a pointer or malformed, and the alias in the list is looked up without being
among those that the scan reports. -/
theorem not_lookups_eq_aliases :
    Scan.of hiddenAlias = ⟨["o"], [], []⟩ ∧
      hiddenAlias.lookups (fun _ => .ok (.int 1)) = ["z", "o"] :=
  ⟨by decide +kernel, by decide +kernel⟩

/-- A value whose `$ref` member is a number.  One alias stands in it twice: before a line end, and
in a longer text in a list. -/
def repeatedAlias : Value :=
  .object [("$ref", .int 5), ("x", .text "\x7bo\x7d\n"),
    ("y", .list [.text "\x7bz\x7d px \x7bo\x7d"])]

theorem lookups_eq_aliases_repeatedAlias :
    (Scan.of repeatedAlias).malformed = [] ∧ repeatedAlias.RefsHoldNoRun ∧
      ((repeatedAlias.trace fun _ => .ok (.int 1)).run.run []).1 =
          repeatedAlias.substitute (fun _ => .ok (.int 1)) ∧
        repeatedAlias.lookups (fun _ => .ok (.int 1)) <+: repeatedAlias.found ∧
          (∀ a ∈ repeatedAlias.lookups (fun _ => .ok (.int 1)),
            a ∈ (Scan.of repeatedAlias).aliases) ∧
            ∀ w, repeatedAlias.substitute (fun _ => .ok (.int 1)) = .ok w →
              (repeatedAlias.lookups (fun _ => .ok (.int 1))).eraseDups =
                (Scan.of repeatedAlias).aliases := by
  have hmalformed : (Scan.of repeatedAlias).malformed = [] := by decide +kernel
  have hrefs : repeatedAlias.RefsHoldNoRun := by decide +kernel
  exact ⟨hmalformed, hrefs, lookups_eq_aliases hmalformed hrefs _⟩

/-- The alias `o` is looked up twice. -/
example : repeatedAlias.lookups (fun _ => .ok (.int 1)) = ["o", "z", "o"] := by decide +kernel

end Value

end DesignTokens

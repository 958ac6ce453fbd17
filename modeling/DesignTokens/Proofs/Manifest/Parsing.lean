import DesignTokens.Manifest.Format
import DesignTokens.Proofs.Manifest.Plain
import DesignTokens.Proofs.Manifest.Resolver
import DesignTokens.Proofs.Manifest.Themes

/-!
# Parsing a manifest

Data are read in the plain form or in a form that recognizes them (`parse_cases`).  Hence every
value, whatever format is asked for, is read or rejected, unless an integer would have to be shown
that has no numeral (`parse_total`).  What is read is a sound manifest, whose accepted selections
can be completed (`parse_sound`).
-/

namespace DesignTokens.FormatRegistry

variable {fs : FileSystem} {data : Value} {members : Table String Value} {format : Option String}

theorem keys_builtIn : Table.keys builtIn = ["upft", "dtcg", "dtcg-manifest"] := rfl

theorem format_of_mem {entry : String × ManifestFormat} (h : entry ∈ builtIn) :
    builtIn.format entry.1 = .ok entry.2 := by
  have hget : Table.get? builtIn entry.1 = some entry.2 :=
    Table.get?_of_mem (keys_builtIn ▸ by decide) h
  unfold FormatRegistry.format
  rw [hget]

def plain : String × ManifestFormat :=
  (Upft.formatName, ⟨Upft.recognizes, fun _ => Upft.parse⟩)

theorem plain_mem : plain ∈ builtIn := List.mem_cons_self

theorem given_of_mem {entry : String × ManifestFormat} (h : entry ∈ builtIn) :
    Context.given (some entry.1) = some entry.1 := by
  have hkey : entry.1 ∈ Table.keys builtIn := List.mem_map_of_mem h
  refine Option.filter_eq_some_iff.mpr ⟨rfl, decide_eq_true ?_⟩
  intro hempty
  rw [hempty, keys_builtIn] at hkey
  revert hkey
  decide

theorem format_unknown {name : String} (h : Table.get? builtIn name = none) :
    builtIn.format name = .error (.manifest "Unknown manifest format"
      [⟨"", .notAmong (.text name) (Table.keys builtIn)⟩] none) := by
  unfold FormatRegistry.format
  rw [h]
  rfl

/-- If no form is asked for, an object is read in a form that recognizes it, or else in the plain
form. -/
theorem parse_detected (fs : FileSystem) (members : Table String Value) :
    ∃ entry ∈ builtIn, (entry = plain ∨ entry.2.recognizes (.object members) = true) ∧
      builtIn.parse fs (.object members) none none = entry.2.parse fs members none := by
  unfold FormatRegistry.parse
  dsimp only
  unfold detect?
  cases hfind : builtIn.find? fun entry => entry.2.recognizes (.object members) with
  | none => exact ⟨plain, plain_mem, .inl rfl, rfl⟩
  | some entry =>
    have hmem := List.mem_of_find?_eq_some hfind
    have hrecognizes := List.find?_some (p := fun entry : String × ManifestFormat =>
      entry.2.recognizes (.object members)) hfind
    refine ⟨entry, hmem, .inr hrecognizes, ?_⟩
    rw [Option.map_some, given_of_mem hmem, Option.getD_some, format_of_mem hmem]
    rfl

/-- An object is read in the plain form or in a form that recognizes it, unless it is rejected. -/
theorem parse_cases (fs : FileSystem) (members : Table String Value) (format : Option String) :
    (∃ entry ∈ builtIn, (entry = plain ∨ entry.2.recognizes (.object members) = true) ∧
        builtIn.parse fs (.object members) none format = entry.2.parse fs members none) ∨
      ∃ title faults, faults ≠ [] ∧
        builtIn.parse fs (.object members) none format = .error (.manifest title faults none) := by
  cases format with
  | none => exact .inl (parse_detected fs members)
  | some name =>
    unfold FormatRegistry.parse
    dsimp only
    cases hget : Table.get? builtIn name with
    | none =>
      rw [format_unknown hget]
      exact .inr ⟨_, _, List.cons_ne_nil _ _, rfl⟩
    | some found =>
      have hmem : (name, found) ∈ builtIn := Table.mem_of_get? hget
      rw [format_of_mem hmem]
      by_cases hname : name = Upft.formatName
      · subst hname
        cases hget
        exact .inl ⟨plain, plain_mem, .inl rfl, rfl⟩
      · dsimp only [Except.instMonad, bind, Except.bind]
        rw [decide_eq_false hname, Bool.false_or]
        split
        · rename_i hrecognizes
          exact .inl ⟨(name, found), hmem, .inr hrecognizes, rfl⟩
        · exact .inr ⟨_, _, List.cons_ne_nil _ _, rfl⟩

/-- **Every value is read or rejected**, or it has an integer without a numeral.  Whatever the data
and the format that is asked for are, there is a manifest, or a list of faults, or an integer among
the data that a fault or a warning would have to show. -/
theorem parse_total (fs : FileSystem) (data : Value) (format : Option String) :
    (∃ read, builtIn.parse fs data none format = .ok read) ∨
      (∃ title faults, faults ≠ [] ∧
        builtIn.parse fs data none format = .error (.manifest title faults none)) ∨
        ∃ n ∈ data.integers, isWritable n = false ∧
          builtIn.parse fs data none format = .error (.numeral (.unwritable n)) := by
  rw [← Judged.iff]
  cases data with
  | object members =>
    rcases parse_cases fs members format with
      ⟨entry, hentry, hknown, hparse⟩ | ⟨title, faults, hne, hrejected⟩
    · rw [hparse]
      rcases hentry with _ | ⟨_, _ | ⟨_, _ | ⟨_, ⟨⟩⟩⟩⟩
      · exact Upft.parse_judged members
      · exact DtcgResolver.parse_judged members
      · rcases hknown with hplain | hrecognizes
        · exact absurd (congrArg Prod.fst hplain) (by decide)
        · exact DtcgThemes.parse_judged fs hrecognizes
    · rw [hrejected]
      exact .rejected title faults hne
  | _ => exact .rejected _ _ (List.cons_ne_nil _ _)

/-- A manifest in the plain form whose only modifier has an integer for its default. -/
def integerDefault (n : Int) : Value := .object
  [("sets", .list [.object [("values", .list [.text "base.json"])]]),
   ("modifiers", .object [("mode", .object
      [("oneOf", .list [.text "light"]), ("default", .int n)])])]

theorem parse_integerDefault {n : Int} (h : isWritable n = false) (fs : FileSystem) :
    builtIn.parse fs (integerDefault n) none none = .error (.numeral (.unwritable n)) := by
  have hfaults : ManifestFault.unwritable?
      ⟨"modifiers.mode.default", .notAmong (.int n) ["light"]⟩ = some n := by
    simp [ManifestFault.unwritable?, Complaint.shown, Value.unwritable?, Value.integers, h]
  change Except.error (Failure.ofManifest Manifest.invalidTitle
    [⟨"modifiers.mode.default", .notAmong (.int n) ["light"]⟩] none) = _
  rw [Failure.ofManifest, List.findSome?_cons, hfaults]

/-- An integer of 4301 digits as a default is neither read nor rejected. -/
theorem not_judged_integerDefault :
    ¬ ((∃ read, builtIn.parse default (integerDefault numeralBound) none none = .ok read) ∨
      ∃ title faults, builtIn.parse default (integerDefault numeralBound) none none =
        .error (.manifest title faults none)) := by
  rw [parse_integerDefault (by decide +kernel)]
  rintro (⟨_, h⟩ | ⟨_, _, h⟩)
  · cases h
  · cases h

/-- **What is read is a sound manifest.**  Each accepted selection of it can be completed: the
completed one has an accepted choice for each modifier, it is accepted, it is its own completion,
and it collects the same files whatever is filtered. -/
theorem parse_sound (fs : FileSystem) (format : Option String) {read : ParsedManifest}
    (hdata : data.KeysDistinct) (h : builtIn.parse fs data none format = .ok read) :
    read.manifest.Sound ∧ ∀ s, read.manifest.validate s = [] →
      ∃ full, read.manifest.normalize s = .ok full ∧
        (∀ entry ∈ read.manifest.modifiers, ∃ v,
            Table.get? full entry.1 = some v ∧ entry.2.Accepts v) ∧
          read.manifest.validate full = [] ∧ read.manifest.normalize full = .ok full ∧
            ∀ spec, ∃ files, read.manifest.files s spec = .ok files ∧
              read.manifest.files full spec = .ok files := by
  have hsound : read.manifest.Sound := by
    cases data with
    | object members =>
      rcases parse_cases fs members format with ⟨entry, hentry, -, hparse⟩ | ⟨_, _, _, hrejected⟩
      · rw [hparse] at h
        rcases hentry with _ | ⟨_, _ | ⟨_, _ | ⟨_, ⟨⟩⟩⟩⟩
        · exact Upft.sound_of_parse hdata h
        · exact DtcgResolver.sound_of_parse h
        · exact DtcgThemes.sound_of_parse h
      · rw [hrejected] at h
        cases h
    | _ => cases h
  exact ⟨hsound, fun s hs => hsound.normalize hs⟩

/-- A manifest in the plain form: two modes, the second of them taken by default. -/
def twoModes : Value := .object
  [("sets", .list [.object [("values", .list [.text "base.json"])]]),
   ("modifiers", .object [("mode", .object
      [("oneOf", .list [.text "light", .text "dark"]), ("default", .text "dark"),
       ("values", .object [("dark", .list [.text "dark.json"])])])])]

theorem parse_sound_twoModes :
    twoModes.KeysDistinct ∧ ∃ read, builtIn.parse default twoModes none none = .ok read ∧
      read.manifest.validate [("mode", .null)] = [] ∧
        ∃ full, full = [("mode", .text "dark")] ∧
          read.manifest.normalize [("mode", .null)] = .ok full ∧
            ∃ files, files = ["base.json", "dark.json"] ∧
              read.manifest.files [("mode", .null)] .empty = .ok files ∧
                read.manifest.files full .empty = .ok files := by
  have hkeys : twoModes.KeysDistinct := by decide
  obtain ⟨read, hread⟩ : ∃ read, builtIn.parse default twoModes none none = .ok read := ⟨_, rfl⟩
  have haccepted : read.manifest.validate [("mode", .null)] = [] := by
    cases hread
    rfl
  obtain ⟨-, hcompleted⟩ := parse_sound default none hkeys hread
  obtain ⟨full, hfull, -, -, -, hfiles⟩ := hcompleted _ haccepted
  obtain ⟨files, hgiven, hsame⟩ := hfiles .empty
  refine ⟨hkeys, read, hread, haccepted, full, ?_, hfull, files, ?_, hgiven, hsame⟩
  · cases hread
    cases hfull
    rfl
  · cases hread
    cases hgiven
    rfl

end DesignTokens.FormatRegistry

import DesignTokens.CommandLine.Run
import DesignTokens.Proofs.Permutation.Names

/-!
# Files of permutations

A result is written to a file that is named for the combination of an entry or for the selection
(`target`, `deliverAll_cons`).  What the results of a run are named for is known from the selections
that a manifest asks for (`resolveAll_named`).  So no result is written over another one where the
names can be told apart and hold no slashes (`targets_distinct`).
-/

namespace DesignTokens

/-! ### Steps with results -/

section

variable {σ α β : Type}

theorem run_bind_eq_ok {x : ExceptT Failure (StateM σ) α} {next : α → ExceptT Failure (StateM σ) β}
    {b : β} {st st' : σ} (h : (x >>= next).run.run st = (.ok b, st')) :
    ∃ a middle, x.run.run st = (.ok a, middle) ∧ (next a).run.run middle = (.ok b, st') := by
  rw [ExceptT.run_bind, StateT.run_bind] at h
  generalize x.run.run st = r at h ⊢
  obtain ⟨e | a, middle⟩ := r
  · cases h
  · exact ⟨a, middle, rfl, h⟩

theorem run_lift (x : Except Failure α) (st : σ) :
    (liftM x : ExceptT Failure (StateM σ) α).run.run st = (x, st) := by
  cases x with
  | error e => rfl
  | ok a => rfl

/-- What each step says of its result holds all along a list. -/
theorem forall₂_of_mapM {f : α → ExceptT Failure (StateM σ) β} {R : α → β → Prop}
    (hf : ∀ a b st st', (f a).run.run st = (.ok b, st') → R a b) {as : List α} {bs : List β}
    {st st' : σ} (h : (as.mapM f).run.run st = (.ok bs, st')) : List.Forall₂ R as bs := by
  induction as generalizing bs st with
  | nil =>
    rw [List.mapM_nil] at h
    cases h
    exact .nil
  | cons a as ih =>
    rw [List.mapM_cons] at h
    obtain ⟨b, _, hb, h⟩ := run_bind_eq_ok h
    obtain ⟨rest, _, hrest, h⟩ := run_bind_eq_ok h
    cases h
    exact .cons (hf a b _ _ hb) (ih hrest)

variable {R : α → β → Prop}

theorem exists_append_of_forall₂ {front back : List α} {bs : List β}
    (h : List.Forall₂ R (front ++ back) bs) :
    ∃ first second, bs = first ++ second ∧ List.Forall₂ R front first ∧
      List.Forall₂ R back second := by
  induction front generalizing bs with
  | nil => exact ⟨[], bs, rfl, .nil, h⟩
  | cons a front ih =>
    obtain ⟨b, rest, hb, hrest, rfl⟩ := List.forall₂_cons_left_iff.mp h
    obtain ⟨first, second, rfl, hfirst, hsecond⟩ := ih hrest
    exact ⟨b :: first, second, rfl, .cons hb hfirst, hsecond⟩

theorem nodup_of_forall₂ {as : List α} {bs : List β} (h : List.Forall₂ R as bs) (has : as.Nodup)
    (hinj : ∀ a ∈ as, ∀ a' ∈ as, ∀ b, R a b → R a' b → a = a') : bs.Nodup := by
  induction h with
  | nil => exact List.nodup_nil
  | @cons a b as bs hab hrest ih =>
    obtain ⟨ha, has⟩ := List.nodup_cons.mp has
    refine List.nodup_cons.mpr ⟨fun hb => ?_, ih has fun x hx y hy => hinj x
      (List.mem_cons_of_mem _ hx) y (List.mem_cons_of_mem _ hy)⟩
    obtain ⟨a', ha', hR⟩ := Value.exists_mem_of_forall₂ hrest hb
    exact ha (hinj a List.mem_cons_self a' (List.mem_cons_of_mem _ ha') b hab hR ▸ ha')

end

/-! ### What results are named for -/

/-- The file that a result is written to below a directory. -/
def Permutation.target (directory : FilePath) (p : Permutation) : FilePath :=
  directory.below (FilePath.ofText ((Context.given p.output).getD (p.id ++ ".json")))

theorem CommandLine.deliverAll_cons (directory : FilePath) (several : Bool) (p : Permutation)
    (results : List Permutation) (progress : Progress) :
    deliverAll (some directory) several (p :: results) progress =
      (deliver p.document (some (p.target directory)) progress).bind
        (deliverAll (some directory) several results) := rfl

namespace Manifest

variable {m : Manifest} {σ : Type} {read : DocumentReader σ} {config : Option Configuration}
  {st st' : σ}

theorem resolve_named {s : Selection} {spec : GenerateSpec} {p : Permutation}
    (h : (m.resolve read config s spec).run.run st = (.ok p, st')) :
    Permutation.idOf s = .ok p.id ∧ p.output = (Table.get? s outputKey).bind Value.text? := by
  unfold resolve at h
  split at h
  · obtain ⟨id, _, hid, h⟩ := run_bind_eq_ok h
    obtain ⟨files, _, -, h⟩ := run_bind_eq_ok h
    obtain ⟨tokens, _, -, h⟩ := run_bind_eq_ok h
    have hid := congrArg Prod.fst ((run_lift _ _).symm.trans hid)
    dsimp only at h
    split at h
    · obtain ⟨resolved, _, -, h⟩ := run_bind_eq_ok h
      cases h
      exact ⟨hid, rfl⟩
    · obtain ⟨resolved, _, -, h⟩ := run_bind_eq_ok h
      cases h
      exact ⟨hid, rfl⟩
  · cases h

theorem resolveAll_named {results : List Permutation}
    (h : (m.resolveAll read config).run.run st = (.ok results, st')) :
    List.Forall₂ (fun job p => Permutation.idOf job.selection = .ok p.id ∧
      p.output = job.output.or ((Table.get? job.selection outputKey).bind Value.text?))
        m.jobs results := by
  refine forall₂_of_mapM (fun job p st st' hp => ?_) h
  obtain ⟨q, _, hq, hp⟩ := run_bind_eq_ok hp
  obtain ⟨hid, houtput⟩ := resolve_named hq
  cases hp
  exact ⟨hid, congrArg (Option.or _) houtput⟩

/-! ### Which files are distinct -/

/-- The names of the files of an entry can be read: it is fanned out over each modifier once, and
only the last one may have an option that continues another one of its own with a hyphen. -/
structure Separated (m : Manifest) (spec : GenerateSpec) : Prop where
  nodup : (m.fanned spec).Nodup
  options : ∀ name ∈ (m.fanned spec).dropLast, ∀ a b, m.IsOption name a → m.IsOption name b →
    ¬ Text.Continues '-' a.toList b.toList

/-- No name and no option holds a slash. -/
def Slashless (m : Manifest) : Prop :=
  ∀ entry ∈ m.modifiers, '/' ∉ entry.1.toList ∧ ∀ option ∈ entry.2.options, '/' ∉ option.toList

instance (m : Manifest) : Decidable m.Slashless :=
  inferInstanceAs (Decidable (∀ entry ∈ m.modifiers,
    '/' ∉ entry.1.toList ∧ ∀ option ∈ entry.2.options, '/' ∉ option.toList))

section

variable {s t : Selection} {spec : GenerateSpec} {directory : FilePath} {id other : String}

theorem slashless_json {text : String} (h : '/' ∉ text.toList) :
    '/' ∉ (text ++ ".json").toList := by
  intro hslash
  rw [String.toList_append, List.mem_append] at hslash
  exact hslash.elim h (by decide)

theorem two_le_length_json (text : String) : 2 ≤ (text ++ ".json").length := by
  rw [String.length_append]
  exact Nat.le_add_left_of_le (by decide)

theorem slashless_id (h : m.Proper) (hslash : m.Slashless) (hs : s ∈ m.allSelections)
    (hid : Permutation.idOf s = .ok id) : '/' ∉ id.toList := by
  rw [idOf_eq h hs] at hid
  have hid := Except.ok.inj hid
  split at hid
  · rw [← hid]
    decide
  · rw [← hid]
    intro hmem
    rcases Text.mem_joinWith hmem with hmem | ⟨part, hpart, hmem⟩
    · exact absurd hmem (by decide)
    · obtain ⟨choice, hchoice, hwritten⟩ := List.mem_filterMap.mp hpart
      obtain ⟨text, htext, rfl⟩ := Option.map_eq_some_iff.mp hwritten
      obtain ⟨entry, hentry, hname, hoffers⟩ :=
        Value.exists_mem_of_forall₂ (mem_allSelections_iff.mp hs) hchoice
      obtain ⟨hfree, hoptions⟩ := hslash entry hentry
      rw [String.toList_append, String.toList_append, List.mem_append, List.mem_append,
        ← hname] at hmem
      rcases hmem with (hmem | hmem) | hmem
      · exact hfree hmem
      · exact absurd hmem (by decide)
      · obtain ⟨option, hoption, hmem⟩ := exists_option_of_mem hoffers htext hmem (by decide)
        exact hoptions option hoption hmem

theorem target_inj {first second : String} (hfirst : '/' ∉ first.toList)
    (hsecond : '/' ∉ second.toList)
    (h : directory.below (FilePath.ofText (first ++ ".json")) =
      directory.below (FilePath.ofText (second ++ ".json"))) : first = second := by
  have hempty : ∀ text : String, text = "" ++ text := fun text => String.empty_append.symm
  rw [hempty (first ++ ".json"), hempty (second ++ ".json")] at h
  have hsame := congrArg String.toList (FilePath.below_inj (slashless_json hfirst)
    (slashless_json hsecond) (two_le_length_json first) (two_le_length_json second) h)
  rw [String.toList_append, String.toList_append] at hsame
  exact String.toList_inj.mp (List.append_cancel_right hsame)

/-- The results of all selections are written to different files. -/
theorem targets_nodup_of_selections (h : m.Proper) (hl : m.Legible) (hslash : m.Slashless)
    {results : List Permutation} (hgenerate : m.generate = none)
    (hrun : (m.resolveAll read config).run.run st = (.ok results, st')) :
    (results.map (Permutation.target directory)).Nodup := by
  have hnamed := resolveAll_named hrun
  rw [jobs, hgenerate, List.forall₂_map_left_iff] at hnamed
  have hnone : ∀ s ∈ m.allSelections, Table.get? s outputKey = none := by
    intro s hs
    refine Table.get?_eq_none_iff.mpr fun hmem => ?_
    rw [keys_of_mem_allSelections hs] at hmem
    obtain ⟨entry, hentry, hname⟩ := List.mem_map.mp hmem
    exact h.output entry hentry hname
  have hfiles : List.Forall₂ (fun s file => ∃ id, Permutation.idOf s = .ok id ∧
      file = directory.below (FilePath.ofText (id ++ ".json")))
        m.allSelections (results.map (Permutation.target directory)) := by
    rw [List.forall₂_map_right_iff]
    refine ((List.forall₂_and_left _ _).mpr ⟨hnone, hnamed⟩).imp ?_
    rintro s p ⟨hs, hid, houtput⟩
    refine ⟨p.id, hid, ?_⟩
    rw [hs] at houtput
    unfold Permutation.target
    rw [houtput]
    rfl
  refine nodup_of_forall₂ hfiles (allSelections_nodup h.options) ?_
  rintro s hs t ht _ ⟨id, hid, rfl⟩ ⟨other, hother, he⟩
  obtain rfl := target_inj (slashless_id h hslash hs hid) (slashless_id h hslash ht hother) he
  exact eq_of_idOf h hl hs ht (hid.trans hother.symm)

theorem slashless_tail (hslash : m.Slashless) {tail : String} (htail : tail ∈ m.tails spec) :
    '/' ∉ tail.toList := by
  intro hmem
  rcases exists_option_of_mem_tails htail hmem with hmem | ⟨entry, hentry, option, hoption, hmem⟩
  · exact absurd hmem (by decide)
  · exact (hslash entry hentry).2 option hoption hmem

theorem two_le_length_tail {tail : String} (htail : tail ∈ m.tails spec) : 2 ≤ tail.length := by
  obtain ⟨combination, -, rfl⟩ := List.mem_map.mp htail
  exact two_le_length_json _

/-- The results of one entry are written to different files. -/
theorem targets_nodup_of_entry (h : m.Proper) (hspec : m.Separated spec) (hslash : m.Slashless)
    {block : List Permutation}
    (hblock : List.Forall₂ (fun made p => p.output = some made.2) (m.fanOut spec) block) :
    (block.map (Permutation.target directory)).Nodup := by
  have hgiven : ∀ made ∈ m.fanOut spec, Context.given (some made.2) = some made.2 := by
    intro made hmade
    have hmem : made.2 ∈ (m.tails spec).map (spec.base ++ ·) :=
      outputs_eq hspec.nodup ▸ List.mem_map_of_mem hmade
    obtain ⟨tail, htail, he⟩ := List.mem_map.mp hmem
    have hlong := two_le_length_tail htail
    have hne : made.2 ≠ "" := by
      intro hempty
      have hlength := congrArg String.length (he.trans hempty)
      rw [String.length_append, String.length_empty] at hlength
      omega
    exact Option.filter_some_pos (by simpa using hne)
  have hfiles : List.Forall₂ (· = ·)
      ((m.fanOut spec).map fun made => directory.below (FilePath.ofText made.2))
      (block.map (Permutation.target directory)) := by
    rw [List.forall₂_map_left_iff, List.forall₂_map_right_iff]
    refine ((List.forall₂_and_left _ _).mpr ⟨hgiven, hblock⟩).imp ?_
    rintro made p ⟨hmade, houtput⟩
    unfold Permutation.target
    rw [houtput, hmade]
    rfl
  have htargets : block.map (Permutation.target directory) = ((m.tails spec).map
      (spec.base ++ ·)).map fun output => directory.below (FilePath.ofText output) := by
    rw [List.forall₂_eq_eq_eq] at hfiles
    rw [← hfiles, ← outputs_eq hspec.nodup, List.map_map]
    rfl
  rw [htargets, List.map_map]
  refine (tails_nodup h hspec.options).map_on fun first hfirst second hsecond he => ?_
  exact FilePath.below_inj (slashless_tail hslash hfirst) (slashless_tail hslash hsecond)
    (two_le_length_tail hfirst) (two_le_length_tail hsecond) he

end

theorem exists_block {results : List Permutation} {before after : List GenerateSpec}
    {spec : GenerateSpec} (hgenerate : m.generate = some (before ++ spec :: after))
    (hrun : (m.resolveAll read config).run.run st = (.ok results, st')) :
    ∃ earlier block later, results = earlier ++ (block ++ later) ∧
      List.Forall₂ (fun made p => p.output = some made.2) (m.fanOut spec) block := by
  have hnamed := resolveAll_named hrun
  rw [jobs, hgenerate, List.forall₂_map_left_iff, List.flatMap_append, List.flatMap_cons] at hnamed
  obtain ⟨earlier, rest, rfl, -, hrest⟩ := exists_append_of_forall₂ hnamed
  obtain ⟨block, later, rfl, hblock, -⟩ := exists_append_of_forall₂ hrest
  exact ⟨earlier, block, later, rfl, hblock.imp fun made p hp => hp.2⟩

/-- **No permutation is written over another one.**  Different selections have different names where
these can be read, and so have the files of one entry.  Without slashes in them the files are
different too that the results of a run are written to:

* those of all selections, if the manifest has no entries;
* those that come from one entry. -/
theorem targets_distinct (m : Manifest) (h : m.Proper) :
    (m.Legible → ∃ ids, List.Forall₂ (fun s id => Permutation.idOf s = .ok id) m.allSelections ids ∧
      ids.Nodup) ∧
      (∀ spec, m.Separated spec → ((m.fanOut spec).map Prod.snd).Nodup) ∧
      (m.Slashless → ∀ (σ : Type) (read : DocumentReader σ) (config : Option Configuration)
        (st st' : σ) (results : List Permutation) (directory : FilePath),
        (m.resolveAll read config).run.run st = (.ok results, st') →
          (m.Legible → m.generate = none → (results.map (Permutation.target directory)).Nodup) ∧
          ∀ before spec after, m.generate = some (before ++ spec :: after) → m.Separated spec →
            ∃ earlier block later, results = earlier ++ (block ++ later) ∧
              List.Forall₂ (fun made p => p.output = some made.2) (m.fanOut spec) block ∧
              (block.map (Permutation.target directory)).Nodup) := by
  refine ⟨fun hl => ?_, fun spec hspec => ?_, fun hslash σ read config st st' results directory hrun
    => ⟨fun hl hgenerate => ?_, fun before spec after hgenerate hspec => ?_⟩⟩
  · have hids : List.Forall₂ (fun s id => Permutation.idOf s = .ok id) m.allSelections
        (m.allSelections.map fun s => if (partsOf s).isEmpty then Permutation.defaultId
          else Text.joinWith "_" (partsOf s)) := by
      rw [List.forall₂_map_right_iff, List.forall₂_same]
      exact fun s hs => idOf_eq h hs
    refine ⟨_, hids, nodup_of_forall₂ hids (allSelections_nodup h.options) ?_⟩
    intro s hs t ht id hid hother
    exact eq_of_idOf h hl hs ht (hid.trans hother.symm)
  · rw [outputs_eq hspec.nodup]
    refine (tails_nodup h hspec.options).map fun first second he => ?_
    have hchars := congrArg String.toList he
    rw [String.toList_append, String.toList_append] at hchars
    exact String.toList_inj.mp (List.append_cancel_left hchars)
  · exact targets_nodup_of_selections h hl hslash hgenerate hrun
  · obtain ⟨earlier, block, later, hresults, hblock⟩ := exists_block hgenerate hrun
    exact ⟨earlier, block, later, hresults, hblock, targets_nodup_of_entry h hspec hslash hblock⟩

theorem legible_lightAndDark : lightAndDark.Legible :=
  (by decide : lightAndDark.Proper).legible_of_plain (by decide) (by decide)

/-- The same manifest with one entry, for every mode and every size. -/
def modesAndSizes : Manifest :=
  { lightAndDark with
    generate := some [{ GenerateSpec.empty with includeModifiers := some ["mode", "size"] }] }

theorem separated_modesAndSizes : modesAndSizes.Separated
    { GenerateSpec.empty with includeModifiers := some ["mode", "size"] } where
  nodup := by decide
  options := by
    intro name hname a b ha hb
    obtain rfl : name = "mode" := List.mem_singleton.mp hname
    obtain ⟨options, _, _, hmodifier, ha⟩ := ha
    obtain ⟨others, _, _, hother, hb⟩ := hb
    obtain ⟨rfl, -, -⟩ := Modifier.oneOf.inj (Option.some.inj hmodifier)
    obtain ⟨rfl, -, -⟩ := Modifier.oneOf.inj (Option.some.inj hother)
    intro hcontinues
    have hmem : '-' ∈ b.toList := hcontinues.subset (List.mem_append_right _ List.mem_cons_self)
    exact absurd hmem ((by decide : ∀ b ∈ ["light", "dark"], '-' ∉ b.toList) b hb)

theorem targets_distinct_lightAndDark :
    (lightAndDark.Proper ∧ lightAndDark.Legible ∧ lightAndDark.Slashless) ∧
      (∃ ids,
        List.Forall₂ (fun s id => Permutation.idOf s = .ok id) lightAndDark.allSelections ids ∧
        ids.Nodup) ∧
      (∃ results st', (lightAndDark.resolveAll Shelf.read none).run.run default =
          (.ok results, st') ∧ (results.map (Permutation.target ⟨0, ["out"]⟩)).Nodup) ∧
      ∃ (results block : List Permutation) (st' : Shelf),
        (modesAndSizes.resolveAll Shelf.read none).run.run default = (.ok results, st') ∧
          block.Sublist results ∧
            (block.map (Permutation.target ⟨0, ["out"]⟩)).Nodup := by
  have hproper : lightAndDark.Proper := by decide
  have hslash : lightAndDark.Slashless := by decide
  have hresults : ∀ m : Manifest,
      ((m.resolveAll Shelf.read none).run.run default).1.toOption.isSome = true →
        ∃ results st', (m.resolveAll Shelf.read none).run.run default = (.ok results, st') := by
    intro m hok
    generalize (m.resolveAll Shelf.read none).run.run default = r at hok ⊢
    obtain ⟨failure | results, st'⟩ := r
    · cases hok
    · exact ⟨results, st', rfl⟩
  obtain ⟨results, st', hrun⟩ := hresults lightAndDark (by decide +kernel)
  obtain ⟨others, st'', hrun'⟩ := hresults modesAndSizes (by decide +kernel)
  obtain ⟨hids, -, htargets⟩ := targets_distinct lightAndDark hproper
  obtain ⟨-, -, hentries⟩ := targets_distinct modesAndSizes (by decide)
  refine ⟨⟨hproper, legible_lightAndDark, hslash⟩, hids legible_lightAndDark,
    ⟨results, st', hrun, (htargets hslash _ _ _ _ _ _ _ hrun).1 legible_lightAndDark rfl⟩, ?_⟩
  obtain ⟨earlier, block, later, rfl, -, hnodup⟩ := (hentries (by decide) _ _ _ _ _ _ ⟨0, ["out"]⟩
    hrun').2 [] _ [] rfl separated_modesAndSizes
  refine ⟨_, block, st'', hrun', ?_, hnodup⟩
  exact (List.sublist_append_left block later).trans (List.sublist_append_right _ _)

def ofModifiers (modifiers : Table String Modifier) : Manifest :=
  { (default : Manifest) with modifiers }

def ids (m : Manifest) : List (Option String) :=
  m.allSelections.map fun s => (Permutation.idOf s).toOption

/-- **Names that are joined without escaping can be the same.**  Each of the manifests has distinct
options that are not empty and no modifier in the place of the file name:

* an option that looks like two options of a list;
* an option that looks like an option with the part of the next modifier, and one that ends where
  the name of a later modifier begins;
* the names of two modifiers, one of which looks like the other with an option;
* options that look like options of the modifier before with something behind them;
* options that are told apart, but lead to one file. -/
theorem not_targets_distinct :
    (∀ m ∈ [ofModifiers [("m", .anyOf ["a", "b", "a+b"] [])],
        ofModifiers [("x", .oneOf ["a", "a_y-b"] [] none), ("y", .anyOf ["b"] [])],
        ofModifiers [("x", .oneOf ["a", "a_b"] [] none), ("b_c", .anyOf ["1"] []),
          ("c", .anyOf ["1"] [])],
        ofModifiers [("x", .anyOf ["y-b"] []), ("x-y", .anyOf ["b"] [])]],
      m.Proper ∧ ¬ m.ids.Nodup) ∧
      (let m := ofModifiers [("x", .oneOf ["a", "a-b"] [] none), ("y", .oneOf ["c", "b-c"] [] none)]
      let spec := { GenerateSpec.empty with includeModifiers := some ["x", "y"] }
      m.Proper ∧ ¬ ((m.fanOut spec).map Prod.snd).Nodup) ∧
      let m := ofModifiers [("x", .oneOf ["a/b", "a//b"] [] none)]
      m.Proper ∧ m.ids.Nodup ∧
        ¬ (m.ids.map fun id => (⟨0, ["out"]⟩ : FilePath).below
          (FilePath.ofText (id.getD "" ++ ".json"))).Nodup := by
  refine ⟨?_, by decide +kernel, by decide +kernel⟩
  simp only [List.forall_mem_cons]
  exact ⟨by decide +kernel, by decide +kernel, by decide +kernel, by decide +kernel, nofun⟩

end Manifest

end DesignTokens

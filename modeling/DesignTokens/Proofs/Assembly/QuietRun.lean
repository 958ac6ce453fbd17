import DesignTokens.Proofs.Assembly.LimitedRun
import DesignTokens.Proofs.Assembly.Listing
import DesignTokens.Proofs.Assembly.Onward

/-!
# Assemblies that report nothing

If an assembly of all files reports nothing, every token has the value to which it expands,
whatever the order of the files is (`expands_of_quiet`).  So every token is good, and an assembly
in another order reports nothing either, unless a chain of hops is longer than the limit
allows, and the values are the same (`exists_quiet_again`).
-/

namespace DesignTokens.Assembly

variable {base : Project} {limit : Int} {before : List Problem}
  {finished others : Set (String × Place)} {stack : List TokenKey} {s r : Assembly}
  {file home : String} {place : Place} {t : Token}

/-! ### What is left after a quiet run -/

theorem Noted.of_subset (h : Noted base limit before finished stack s) (hsub : others ⊆ finished) :
    Noted base limit before others stack s :=
  { h with finished := fun x hx => h.finished x (hsub hx) }

theorem ends_assembleFile_noted (hbase : base.Sound) (hlimit : isWritable limit = true)
    (file : String) :
    Ends (Noted base limit before ∅ []) (assembleFile file) fun _ =>
      Noted base limit before ∅ [] := by
  unfold assembleFile
  refine .get_bind fun s hs => ?_
  cases s.project.tree? file with
  | none => exact .pure fun s he => he ▸ hs
  | some tree =>
    refine (ends_assemblePlaces_noted hbase hlimit file _).imp ?_ fun _ s h => h.of_subset nofun
    rintro _ rfl
    exact hs.of_subset fun x hx => absurd hx.2 List.not_mem_nil

theorem ends_assembleFiles_noted (hbase : base.Sound) (hlimit : isWritable limit = true)
    (files : List String) :
    Ends (Noted base limit before ∅ []) (assembleFiles files) fun _ =>
      Noted base limit before ∅ [] := by
  induction files with
  | nil =>
    rw [assembleFiles]
    exact .pure fun _ hs => hs
  | cons file files ih =>
    rw [assembleFiles]
    exact (ends_assembleFile_noted hbase hlimit file).bind fun _ => ih

/-- **After a quiet run every token has the value to which it expands.** -/
theorem expands_of_quiet (hbase : base.Sound) (hkeyed : base.Keyed)
    (hlimit : isWritable limit = true) {files : List String}
    (hfiles : ∀ file ∈ base.files.keys, file ∈ files)
    (hrun : (assembleFiles files).run.run (start base limit) = (.ok (), r))
    (hquiet : r.problems = []) (ht : base.tokenAt? file place = some t) :
    ∃ u, r.tokenAt? file place = some u ∧ base.Expands file place u.value := by
  have hnone : Noted base limit [] {x | x.1 = file ∧ x.2 ∈ []} [] (start base limit) :=
    noted_start hbase limit
  have hstart : Noted base limit [] ∅ [] (start base limit) := hnone.of_subset nofun
  obtain ⟨_, r', hrun', hnoted⟩ := ends_assembleFiles_noted hbase hlimit files _ hstart
  obtain rfl : r = r' := congrArg Prod.snd (hrun.symm.trans hrun')
  obtain ⟨u, hu, hfate⟩ := hnoted.tokens file place t ht
  refine ⟨u, hu, hfate.expands ht ?_⟩
  have hsettled := settled_assembleFiles hkeyed (beside_start base limit) rfl hrun hquiet file
    (hfiles file (Project.mem_keys_of_tokenAt? ht)) place t ht
  by_cases hdone : (file, t.path) ∈ r.done
  · -- A pointer that is left is listed.
    have houter : u.value.outerPointers = [] := by
      refine List.eq_nil_iff_forall_not_mem.mpr fun ref href => ?_
      obtain ⟨e, he, -⟩ := hfate.listed hdone ref href
      rw [hquiet] at he
      exact List.not_mem_nil he
    rw [hfate.pointers]
    exact (Value.noRefs_of_outerPointers hfate.value.refsAreTexts houter).scan_pointers
  · rw [hfate.waiting hdone]
    exact hsettled.resolve_right hdone

/-! ### Quiet runs in any order -/

/-- Nothing is reported, and every token waits as it was or has the value to which it expands. -/
structure Calm (base : Project) (limit : Int) (s : Assembly) : Prop where
  beside : Beside base s
  quiet : s.problems = []
  limited : ∀ home, Limited base home limit [] ∅ [] s

theorem Limited.of_subset (h : Limited base home limit before finished stack s)
    (hsub : others ⊆ finished) : Limited base home limit before others stack s :=
  { h with finished := fun x hx => h.finished x (hsub hx) }

theorem Limited.change_home {other : String} (h : Limited base home limit before finished stack s)
    (hquiet : s.problems = []) : Limited base other limit before finished stack s :=
  { h with
    explained := fun e he => by
      rw [hquiet] at he
      exact absurd he List.not_mem_nil }

theorem calm_start (hbase : base.Sound) (limit : Int) : Calm base limit (start base limit) where
  beside := beside_start base limit
  quiet := rfl
  limited home := (limited_start hbase home limit).of_subset nofun

section

variable (hbase : base.Sound)
  (hgood : ∀ file place t, base.tokenAt? file place = some t → base.Good file place)
  (hshort : ∀ x, ¬ base.HasChain (hopsWithin limit + 1) x)

include hbase hgood hshort

theorem ends_assembleFile_calm (file : String) :
    Ends (Calm base limit) (assembleFile file) fun _ => Calm base limit := by
  intro s hs
  cases hnow : s.project.tree? file with
  | none => exact ⟨_, s, run_assembleFile_none hnow, hs⟩
  | some now =>
    have houtline := hs.beside.outlined file
    rw [hnow] at houtline
    obtain ⟨tree, htree, he⟩ := Option.map_eq_some_iff.mp houtline.symm
    have hlimited : Limited base file limit [] {x | x.1 = file ∧ x.2 ∈ []} [] s :=
      (hs.limited file).of_subset fun x hx => absurd hx.2 List.not_mem_nil
    have hsafe : isWritable limit = true ∨ ∀ x, ¬ base.Endangered file limit x := by
      refine Or.inr fun x hdanger => ?_
      obtain ⟨first, hchain⟩ := hdanger.hasChain
      exact hshort _ hchain
    rw [run_assembleFile_some hnow, Group.places_of_outline he.symm]
    obtain ⟨a, r, hrun, hr⟩ :=
      ends_assemblePlaces_limited hbase hgood hsafe htree [] _ rfl s hlimited
    have hbeside : Beside base r := by
      have hkept := ((storing_beside base).keeps_assemblePlaces file
        (tree.placedTokens.map Prod.fst) s hs.beside).kept
      rwa [hrun] at hkept
    have hquiet : r.problems = [] := by
      refine List.eq_nil_iff_forall_not_mem.mpr fun e he => ?_
      obtain ⟨-, other, spot, u, -, -, -, hdanger⟩ := hr.explained e he
      obtain ⟨first, hchain⟩ := hdanger.hasChain
      exact hshort _ hchain
    exact ⟨a, r, hrun, hbeside, hquiet, fun home => (hr.change_home hquiet).of_subset nofun⟩

theorem ends_assembleFiles_calm (files : List String) :
    Ends (Calm base limit) (assembleFiles files) fun _ => Calm base limit := by
  induction files with
  | nil =>
    rw [assembleFiles]
    exact .pure fun _ hs => hs
  | cons file files ih =>
    rw [assembleFiles]
    exact (ends_assembleFile_calm hbase hgood hshort file).bind fun _ => ih

end

/-- **Where one run of all files is quiet, every other one is, and gives the same values**, unless
a chain of hops is longer than the limit allows. -/
theorem exists_quiet_again (hbase : base.Sound) (hkeyed : base.Keyed)
    (hlimit : isWritable limit = true) (hshort : ∀ x, ¬ base.HasChain (hopsWithin limit + 1) x)
    {files order : List String} (hfiles : ∀ file ∈ base.files.keys, file ∈ files)
    (horder : ∀ file ∈ base.files.keys, file ∈ order)
    (hrun : (assembleFiles files).run.run (start base limit) = (.ok (), r))
    (hquiet : r.problems = []) :
    ∃ r', (assembleFiles order).run.run (start base limit) = (.ok (), r') ∧ r'.problems = [] ∧
      ∀ file place, r'.project.valueAt? file place = r.project.valueAt? file place := by
  have hexpands : ∀ file place t, base.tokenAt? file place = some t →
      ∃ u, r.tokenAt? file place = some u ∧ base.Expands file place u.value :=
    fun _ _ _ ht => expands_of_quiet hbase hkeyed hlimit hfiles hrun hquiet ht
  have hgood : ∀ file place t, base.tokenAt? file place = some t → base.Good file place := by
    intro file place t ht
    obtain ⟨u, -, hu⟩ := hexpands file place t ht
    exact ⟨u.value, hu⟩
  obtain ⟨⟨⟩, r', hrun', hr'⟩ :=
    ends_assembleFiles_calm hbase hgood hshort order _ (calm_start hbase limit)
  refine ⟨r', hrun', hr'.quiet, fun file place => ?_⟩
  cases ht : base.tokenAt? file place with
  | none =>
    have hnone := (beside_of_run hrun).tokenAt?_eq_none ht
    have hnone' := hr'.beside.tokenAt?_eq_none ht
    show (r'.tokenAt? file place).map _ = (r.tokenAt? file place).map _
    rw [hnone, hnone']
  | some t =>
    obtain ⟨u, hu, hvalue⟩ := hexpands file place t ht
    obtain ⟨u', hu', hvalue'⟩ := expands_of_quiet hbase hkeyed hlimit horder hrun' hr'.quiet ht
    show (r'.tokenAt? file place).map _ = (r.tokenAt? file place).map _
    rw [hu, hu']
    exact congrArg some (hvalue'.unique hvalue)

end DesignTokens.Assembly

import DesignTokens.Manifest.DtcgThemes
import DesignTokens.Proofs.Graph.Reachability
import DesignTokens.Proofs.Manifest.Rejections
import DesignTokens.Proofs.Manifest.Sound
import DesignTokens.Proofs.Reference.Substitution

/-!
# Theme manifests are sound

The reading of a theme manifest takes members for granted that the recognition of the format
has asked for, and sources that the faults of the themes have asked for.  So data of that
form are read or rejected (`parse_judged`), and what is read has a modifier for each
condition key, whose options are the values that the themes give to the key.
-/

namespace DesignTokens.DtcgThemes

variable {fs : FileSystem} {data : Table String Value} {source : Option String} {v : Value}
  {ns : List Int}

/-! ### Recognized parts -/

theorem exists_member {α : Type} {key : String} {part? : Value → Option α}
    (h : ((v.member? key).bind part?).isSome = true) :
    ∃ w a, v.demandMember key = .ok w ∧ part? w = some a := by
  obtain ⟨a, ha⟩ := Option.isSome_iff_exists.mp h
  obtain ⟨w, hw, hpart⟩ := Option.bind_eq_some_iff.mp ha
  obtain ⟨members, hmembers, hget⟩ := Option.bind_eq_some_iff.mp hw
  cases v with
  | object others =>
    cases hmembers
    exact ⟨w, a, Value.demandMember_object hget, hpart⟩
  | _ => cases hmembers

theorem eq_text {s : String} (h : v.text? = some s) : v = .text s := by
  cases v with
  | text t => exact congrArg Value.text (Option.some.inj h)
  | _ => cases h

theorem eq_list {items : List Value} (h : v.items? = some items) : v = .list items := by
  cases v with
  | list others => exact congrArg Value.list (Option.some.inj h)
  | _ => cases h

theorem eq_object {members : Table String Value} (h : v.members? = some members) :
    v = .object members := by
  cases v with
  | object others => exact congrArg Value.object (Option.some.inj h)
  | _ => cases h

theorem exists_source (h : isSource v = true) :
    ∃ name items, Source.ofValue v = .ok ⟨.text name, .list items⟩ := by
  obtain ⟨hname, hpatterns⟩ := Bool.and_eq_true_iff.mp h
  obtain ⟨_, name, hdemandName, htext⟩ := exists_member hname
  obtain ⟨_, items, hdemandPatterns, hitems⟩ := exists_member hpatterns
  refine ⟨name, items, ?_⟩
  rw [Source.ofValue, hdemandName, hdemandPatterns, eq_text htext, eq_list hitems]
  rfl

theorem exists_theme (h : isTheme v = true) : ∃ t, Theme.ofValue v = .ok t := by
  obtain ⟨hfirst, hsources⟩ := Bool.and_eq_true_iff.mp h
  obtain ⟨hsecond, hconditions⟩ := Bool.and_eq_true_iff.mp hfirst
  obtain ⟨hid, hname⟩ := Bool.and_eq_true_iff.mp hsecond
  obtain ⟨id, _, hdemandId, -⟩ := exists_member hid
  obtain ⟨name, _, hdemandName, -⟩ := exists_member hname
  obtain ⟨_, conditions, hdemandConditions, hmembers⟩ := exists_member hconditions
  obtain ⟨_, sources, hdemandSources, hitems⟩ := exists_member hsources
  refine ⟨⟨id, name, conditions, sources⟩, ?_⟩
  rw [Theme.ofValue, hdemandId, hdemandName, hdemandConditions, hdemandSources, eq_object hmembers,
    eq_list hitems]
  rfl

theorem exists_themes {items : List Value} (h : ∀ v ∈ items, isTheme v = true) :
    ∃ themes, Theme.ofValues items = .ok themes := by
  induction items with
  | nil => exact ⟨[], rfl⟩
  | cons v items ih =>
    obtain ⟨hv, hitems⟩ := List.forall_mem_cons.mp h
    obtain ⟨t, ht⟩ := exists_theme hv
    obtain ⟨themes, hthemes⟩ := ih hitems
    refine ⟨t :: themes, ?_⟩
    rw [Theme.ofValues, ht, hthemes]
    rfl

/-! ### Sources -/

theorem expandPatterns_none (fs : FileSystem) (patterns : List String) :
    expandPatterns fs none patterns = .ok patterns := by
  induction patterns with
  | nil => rfl
  | cons pattern patterns ih =>
    rw [expandPatterns, ih]
    rfl

theorem exists_nameFaults (ns : List Int) (d : Inventory) (place name : String) :
    ∃ faults, nameFaults d place (.text name) = .ok faults ∧ ShowsFrom ns faults := by
  unfold nameFaults
  split
  · exact ⟨_, rfl, .plain rfl⟩
  · refine ⟨_, rfl, .ite (.single fun v hv => ?_) .nil⟩
    rw [List.mem_singleton.mp hv]
    exact List.nil_subset _

theorem showsFrom_patternFaults (place : String) (patterns : Value) :
    ShowsFrom ns (patternFaults place patterns) :=
  .ite (.plain rfl) (.ite (.plain rfl) .nil)

theorem exists_patternsOf (items : List Value) :
    ∃ patterns, patternsOf (.list items) = .ok patterns := by
  unfold patternsOf
  split
  · exact ⟨_, rfl⟩
  · exact ⟨_, rfl⟩

/-- A recognized source is read, and its name is a text. -/
theorem exists_readSource (fs : FileSystem) {d : Inventory} (hd : ShowsFrom ns d.faults)
    (place : String) (h : isSource v = true) :
    ∃ e, readSource fs none d place v = .ok e ∧ e.unnamed = d.unnamed ∧ ShowsFrom ns e.faults := by
  obtain ⟨name, items, hsource⟩ := exists_source h
  obtain ⟨faults, hfaults, hshown⟩ := exists_nameFaults ns d place name
  obtain ⟨patterns, hpatterns⟩ := exists_patternsOf items
  have hall := hd.append (hshown.append (showsFrom_patternFaults place (.list items)))
  unfold readSource
  rw [hsource]
  change ∃ e, (nameFaults d place (.text name) >>= fun faults =>
    patternsOf (.list items) >>= _) = .ok e ∧ _
  rw [hfaults, hpatterns]
  cases patterns with
  | none => exact ⟨_, rfl, rfl, hall⟩
  | some patterns =>
    change ∃ e, (expandPatterns fs none patterns >>= _) = .ok e ∧ _
    rw [expandPatterns_none]
    exact ⟨_, rfl, rfl, hall⟩

theorem exists_readSources (fs : FileSystem) {d : Inventory} (hd : ShowsFrom ns d.faults)
    (index : Nat) {items : List Value} (h : ∀ v ∈ items, isSource v = true) :
    ∃ e, readSources fs none d index items = .ok e ∧ e.unnamed = d.unnamed ∧
      ShowsFrom ns e.faults := by
  induction items generalizing d index with
  | nil => exact ⟨d, rfl, rfl, hd⟩
  | cons v items ih =>
    obtain ⟨hv, hitems⟩ := List.forall_mem_cons.mp h
    obtain ⟨e, he, hunnamed, hshown⟩ :=
      exists_readSource fs hd (Manifest.itemPlace "sources" index) hv
    obtain ⟨f, hf, hothers, hlater⟩ := ih hshown (index + 1) hitems
    refine ⟨f, ?_, hothers.trans hunnamed, hlater⟩
    rw [readSources, he]
    exact hf

/-! ### What the faults of themes show -/

theorem integers_demandMember_subset {w : Value} {key : String}
    (h : v.demandMember key = .ok w) : w.integers ⊆ v.integers := by
  cases v with
  | object members =>
    unfold Value.demandMember at h
    dsimp only at h
    split at h
    · rename_i hget
      cases h
      exact Value.integers_get?_subset hget
    · cases h
  | _ => cases h

theorem integers_demandItems_subset {items : List Value} (h : v.demandItems = .ok items) :
    (Value.list items).integers ⊆ v.integers := by
  intro n hn
  obtain ⟨w, hw, hmem⟩ := Value.mem_integers_list.mp hn
  cases v with
  | list others =>
    cases h
    exact hn
  | text s =>
    cases h
    obtain ⟨_, -, rfl⟩ := List.mem_map.mp hw
    cases hmem
  | object members =>
    cases h
    obtain ⟨_, -, rfl⟩ := List.mem_map.mp hw
    cases hmem
  | _ => cases h

theorem Theme.integers_sources_subset {t : Theme} (h : Theme.ofValue v = .ok t) :
    (Value.list t.sources).integers ⊆ v.integers := by
  obtain ⟨_, -, h⟩ := Value.bind_eq_ok.mp h
  obtain ⟨_, -, h⟩ := Value.bind_eq_ok.mp h
  obtain ⟨_, -, h⟩ := Value.bind_eq_ok.mp h
  obtain ⟨_, -, h⟩ := Value.bind_eq_ok.mp h
  obtain ⟨listed, hlisted, h⟩ := Value.bind_eq_ok.mp h
  obtain ⟨sources, hsources, h⟩ := Value.bind_eq_ok.mp h
  cases h
  exact List.Subset.trans (integers_demandItems_subset hsources)
    (integers_demandMember_subset hlisted)

theorem integers_themes_subset {items : List Value} {themes : List Theme}
    (h : Theme.ofValues items = .ok themes) :
    ∀ t ∈ themes, (Value.list t.sources).integers ⊆ (Value.list items).integers := by
  induction items generalizing themes with
  | nil =>
    cases h
    exact nofun
  | cons v items ih =>
    obtain ⟨t, ht, h⟩ := Value.bind_eq_ok.mp h
    obtain ⟨others, hothers, h⟩ := Value.bind_eq_ok.mp h
    cases h
    have hfirst : v.integers ⊆ (Value.list (v :: items)).integers :=
      Value.integers_item_subset List.mem_cons_self
    refine List.forall_mem_cons.mpr ⟨?_, fun u hu => ?_⟩
    · exact List.Subset.trans (Theme.integers_sources_subset ht) hfirst
    · exact List.Subset.trans (ih hothers u hu) (Value.integers_tail_subset v items)

/-- Of a theme only the faults of its sources show values. -/
theorem Theme.showsFrom_faults {known : Table String (List String)} {place : String} {t : Theme}
    (h : (Value.list t.sources).integers ⊆ ns) : ShowsFrom ns (t.faults known place) := by
  refine .append (.append (.append (.append (.append (.ite (.plain rfl) .nil)
    (.ite (.plain rfl) .nil)) (.ite (.plain rfl) .nil)) (.filterMap fun entry _ f hf => ?_))
      (.ite (.plain rfl) .nil)) (.filterMap fun v hv f hf => ?_)
  · dsimp only at hf
    split at hf
    · cases hf
    · cases hf
      exact .plain rfl
  · split at hf
    · cases hf
    · cases hf
      refine .single fun w hw => ?_
      rw [List.mem_singleton.mp hw]
      exact List.Subset.trans (Value.integers_item_subset hv) h

theorem showsFrom_outputsFaults (v : Option Value) : ShowsFrom ns (outputsFaults v) := by
  unfold outputsFaults
  split
  · exact .nil
  · refine .mapIdx fun index v _ => ?_
    unfold outputFaults
    split
    · exact .append (.ite (.plain rfl) .nil) (.ite (.plain rfl) .nil)
    · exact .plain rfl
  · exact .plain rfl

/-! ### Themes without faults -/

/-- What the faults of a theme ask for: the conditions are texts, and the sources have names that
are known. -/
structure Theme.Clean (known : Table String (List String)) (t : Theme) : Prop where
  conditions : ∀ entry ∈ t.conditions, entry.2.text?.isSome = true
  sources : ∀ name ∈ t.sourceNames, known.has name = true

theorem Theme.clean_of_faults {known : Table String (List String)} {place : String} {t : Theme}
    (h : t.faults known place = []) : t.Clean known := by
  unfold Theme.faults at h
  obtain ⟨hfirst, hsources⟩ := List.append_eq_nil_iff.mp h
  obtain ⟨hsecond, -⟩ := List.append_eq_nil_iff.mp hfirst
  obtain ⟨-, hconditions⟩ := List.append_eq_nil_iff.mp hsecond
  refine ⟨fun entry hentry => ?_, fun name hname => ?_⟩
  · have hnone := List.filterMap_eq_nil_iff.mp hconditions entry hentry
    dsimp only at hnone
    split at hnone
    · assumption
    · cases hnone
  · obtain ⟨v, hv, htext⟩ := List.mem_filterMap.mp hname
    have hnone := List.filterMap_eq_nil_iff.mp hsources v hv
    rw [htext] at hnone
    split at hnone
    · assumption
    · cases hnone

variable {themes : List Theme} {known : Table String (List String)}

theorem faults_eq_nil
    (h : (themes.mapIdx fun index t =>
      t.faults known (Manifest.itemPlace "themes" index)).flatten = []) :
    ∀ t ∈ themes, ∃ place, t.faults known place = [] := by
  intro t ht
  obtain ⟨index, hindex, rfl⟩ := List.getElem_of_mem ht
  have hmem := List.mem_mapIdx (f := fun index t => Theme.faults known
    (Manifest.itemPlace "themes" index) t).mpr ⟨index, hindex, rfl⟩
  exact ⟨_, List.flatten_eq_nil_iff.mp h _ hmem⟩

theorem clean_of_faults
    (h : (themes.mapIdx fun index t =>
      t.faults known (Manifest.itemPlace "themes" index)).flatten = []) :
    ∀ t ∈ themes, t.Clean known := by
  intro t ht
  obtain ⟨place, hplace⟩ := faults_eq_nil h t ht
  exact Theme.clean_of_faults hplace

/-! ### Modifiers -/

theorem exists_filesOf {names : List String} (h : ∀ name ∈ names, known.has name = true) :
    ∃ files, filesOf known names = .ok files := by
  induction names with
  | nil => exact ⟨[], rfl⟩
  | cons name names ih =>
    obtain ⟨hname, hnames⟩ := List.forall_mem_cons.mp h
    obtain ⟨files, hfiles⟩ := Option.isSome_iff_exists.mp hname
    obtain ⟨others, hothers⟩ := ih hnames
    rw [filesOf, hfiles]
    dsimp only
    rw [hothers]
    exact ⟨files ++ others, rfl⟩

theorem has_of_mem_sourcesFor (h : ∀ t ∈ themes, t.Clean known) {key value : String} :
    ∀ name ∈ sourcesFor themes key value, known.has name = true := by
  intro name hname
  obtain ⟨t, ht, hmem⟩ := List.mem_flatMap.mp (List.mem_eraseDups.mp hname)
  exact (h t (List.mem_filter.mp ht).1).sources name hmem

theorem exists_valueFiles (h : ∀ t ∈ themes, t.Clean known) (key : String) (values : List String) :
    ∃ files, valueFiles themes known key values = .ok files := by
  induction values with
  | nil => exact ⟨[], rfl⟩
  | cons value values ih =>
    have hknown : ∀ name ∈ sourcesFor themes key value, known.has name = true :=
      has_of_mem_sourcesFor h
    obtain ⟨files, hfiles⟩ := exists_filesOf hknown
    obtain ⟨others, hothers⟩ := ih
    refine ⟨(value, files) :: others, ?_⟩
    rw [valueFiles, hfiles, hothers]
    rfl

theorem exists_conditionModifiers (h : ∀ t ∈ themes, t.Clean known) (keys : List String) :
    ∃ modifiers, conditionModifiers themes known keys = .ok modifiers := by
  induction keys with
  | nil => exact ⟨[], rfl⟩
  | cons key keys ih =>
    obtain ⟨files, hfiles⟩ := exists_valueFiles h key (conditionValues themes key)
    obtain ⟨others, hothers⟩ := ih
    refine ⟨(key, .oneOf (conditionValues themes key) files none) :: others, ?_⟩
    rw [conditionModifiers, hfiles, hothers]
    rfl

theorem keys_of_valueFiles {key : String} {values : List String}
    {files : Table String (List String)} (h : valueFiles themes known key values = .ok files) :
    files.keys = values := by
  induction values generalizing files with
  | nil =>
    cases h
    rfl
  | cons value values ih =>
    obtain ⟨first, -, hrest⟩ := Value.bind_eq_ok.mp h
    obtain ⟨others, hothers, hfiles⟩ := Value.bind_eq_ok.mp hrest
    cases hfiles
    exact congrArg (value :: ·) (ih hothers)

theorem conditionValues_ne_nil (h : ∀ t ∈ themes, t.Clean known) {key : String}
    (hkey : key ∈ conditionKeys themes) : conditionValues themes key ≠ [] := by
  obtain ⟨t, ht, hmem⟩ := List.mem_flatMap.mp (List.mem_eraseDups.mp hkey)
  obtain ⟨v, hv⟩ := Table.exists_get?_of_mem_keys hmem
  obtain ⟨value, hvalue⟩ :=
    Option.isSome_iff_exists.mp ((h t ht).conditions _ (Table.mem_of_get? hv))
  have hcondition : t.condition? key = some value := Option.bind_eq_some_iff.mpr ⟨v, hv, hvalue⟩
  exact List.ne_nil_of_mem (List.mem_eraseDups.mpr (List.mem_filterMap.mpr ⟨t, ht, hcondition⟩))

/-- There is a modifier for each key, and it is well formed. -/
theorem of_conditionModifiers (h : ∀ t ∈ themes, t.Clean known) {keys : List String}
    {modifiers : Table String Modifier} (hkeys : ∀ key ∈ keys, key ∈ conditionKeys themes)
    (hmodifiers : conditionModifiers themes known keys = .ok modifiers) :
    modifiers.keys = keys ∧ ∀ entry ∈ modifiers, entry.2.WellFormed := by
  induction keys generalizing modifiers with
  | nil =>
    cases hmodifiers
    exact ⟨rfl, nofun⟩
  | cons key keys ih =>
    obtain ⟨hkey, hothers⟩ := List.forall_mem_cons.mp hkeys
    obtain ⟨files, hfiles, hrest⟩ := Value.bind_eq_ok.mp hmodifiers
    obtain ⟨others, hread, he⟩ := Value.bind_eq_ok.mp hrest
    cases he
    obtain ⟨hsame, hwell⟩ := ih hothers hread
    refine ⟨congrArg (key :: ·) hsame, List.forall_mem_cons.mpr ⟨⟨?_, ?_, nofun⟩, hwell⟩⟩
    · exact conditionValues_ne_nil h hkey
    · exact fun option hoption => keys_of_valueFiles hfiles ▸ hoption

/-! ### The reading as a whole -/

theorem build_judged (h : ∀ t ∈ themes, t.Clean known) (data : Table String Value) :
    Judged ns (build data none themes known) := by
  obtain ⟨modifiers, hmodifiers⟩ := exists_conditionModifiers h (conditionKeys themes)
  unfold build
  rw [hmodifiers]
  exact Manifest.withDescription_judged _ _ _

theorem sound_of_build {m : Manifest} (h : ∀ t ∈ themes, t.Clean known)
    (hm : build data source themes known = .ok m) : m.Sound := by
  obtain ⟨modifiers, hread, hbuild⟩ := Value.bind_eq_ok.mp hm
  obtain ⟨hmodifiers, hgenerate, hdepth⟩ := Manifest.of_withDescription hbuild
  obtain ⟨hkeys, hwell⟩ := of_conditionModifiers h (fun _ => id) hread
  refine ⟨?_, ?_, ?_, ?_⟩
  · rw [hmodifiers, hkeys]
    exact Graph.nodup_eraseDups _
  · rw [hmodifiers]
    exact hwell
  · rw [hgenerate]
    exact nofun
  · rw [hdepth]
    exact Manifest.one_le_defaultMaxDepth

def themeItems (data : Table String Value) : Except Failure (List Value) :=
  match Value.firstStated [data.get? "themes"] with
  | none => .ok []
  | some v => v.demandItems

/-- What is made of the sources and the themes. -/
def conclude (data : Table String Value) (source : Option String) (known : Inventory)
    (themes : List Theme) : Except Failure ParsedManifest :=
  let themeFaults := (themes.mapIdx fun index t =>
    t.faults known.files (Manifest.itemPlace "themes" index)).flatten
  let faults :=
    known.faults ++ themeFaults ++ outputsFaults (Value.firstStated [data.get? "outputs"])
  match faults, known.unnamed with
  | [], [] => (build data source themes known.files).map (⟨·, []⟩)
  | [], name :: _ => throw (.unnamedSet name)
  | _, _ => throw (.ofManifest "Invalid DTCG manifest" faults source)

/-- The reading in its steps. -/
theorem parse_eq (fs : FileSystem) (data : Table String Value) (source : Option String) :
    parse fs data source = (do
      let listed ← Value.demandMember (.object data) "sources"
      let rawSources ← listed.demandItems
      let known ← readSources fs (baseDirectory source) .empty 0 rawSources
      let rawThemes ← themeItems data
      let themes ← Theme.ofValues rawThemes
      conclude data source known themes) := by
  unfold parse themeItems
  cases Value.firstStated [data.get? "themes"] with
  | none => rfl
  | some v => rfl

theorem clean_of_conclude {d : Inventory} (h : d.faults ++
    (themes.mapIdx fun index t =>
      t.faults d.files (Manifest.itemPlace "themes" index)).flatten ++
        outputsFaults (Value.firstStated [data.get? "outputs"]) = []) :
    ∀ t ∈ themes, t.Clean d.files :=
  clean_of_faults (List.append_eq_nil_iff.mp (List.append_eq_nil_iff.mp h).1).2

theorem conclude_judged {d : Inventory} (h : d.unnamed = []) (hd : ShowsFrom ns d.faults)
    (hthemes : ∀ t ∈ themes, (Value.list t.sources).integers ⊆ ns) :
    Judged ns (conclude data none d themes) := by
  unfold conclude
  dsimp only
  split
  · rename_i hfaults _
    exact (build_judged (clean_of_conclude hfaults) data).map _
  · rename_i hunnamed
    rw [h] at hunnamed
    cases hunnamed
  · rename_i hnone _
    refine .ofManifest _ (fun hfaults => hnone hfaults h) ?_
    exact (hd.append (.mapIdx fun _ t ht => Theme.showsFrom_faults (hthemes t ht))).append
      (showsFrom_outputsFaults _)

/-- Data of the form are read or rejected. -/
theorem parse_judged (fs : FileSystem) (h : recognizes (.object data) = true) :
    Judged (Value.object data).integers (parse fs data none) := by
  obtain ⟨hsources, hthemes⟩ := Bool.and_eq_true_iff.mp h
  have hsourceItems : ∃ items, data.get? "sources" = some (.list items) ∧
      ∀ v ∈ items, isSource v = true := by
    split at hsources
    · rename_i hget
      exact ⟨_, hget, List.all_eq_true.mp hsources⟩
    · cases hsources
  have hthemeItems : ∃ items, themeItems data = .ok items ∧ (∀ v ∈ items, isTheme v = true) ∧
      (Value.list items).integers ⊆ (Value.object data).integers := by
    unfold themeItems
    split at hthemes
    · rename_i hget
      exact ⟨[], hget ▸ rfl, fun _ hv => absurd hv List.not_mem_nil, List.nil_subset _⟩
    · rename_i items hstated
      have hget : data.get? "themes" = some (.list items) :=
        (List.mem_singleton.mp (Value.firstStated_cases hstated).1).symm
      exact ⟨items, hstated ▸ rfl, List.all_eq_true.mp hthemes, Value.integers_get?_subset hget⟩
    · cases hthemes
  obtain ⟨sourceItems, hget, hsources⟩ := hsourceItems
  obtain ⟨themeValues, hvalues, hthemes, hsubset⟩ := hthemeItems
  obtain ⟨known, hknown, hunnamed, hshown⟩ :=
    exists_readSources (d := .empty) fs .nil 0 hsources
  obtain ⟨themes, hread⟩ := exists_themes hthemes
  rw [parse_eq, Value.demandMember_object hget, hvalues]
  change Judged _ (readSources fs none .empty 0 sourceItems >>= fun known =>
    Theme.ofValues themeValues >>= conclude data none known)
  rw [hknown, hread]
  exact conclude_judged hunnamed hshown
    fun t ht => List.Subset.trans (integers_themes_subset hread t ht) hsubset

/-- What is read from a theme manifest is a sound manifest. -/
theorem sound_of_parse {read : ParsedManifest} (h : parse fs data source = .ok read) :
    read.manifest.Sound := by
  rw [parse_eq] at h
  obtain ⟨_, -, h⟩ := Value.bind_eq_ok.mp h
  obtain ⟨_, -, h⟩ := Value.bind_eq_ok.mp h
  obtain ⟨known, -, h⟩ := Value.bind_eq_ok.mp h
  obtain ⟨_, -, h⟩ := Value.bind_eq_ok.mp h
  obtain ⟨themes, -, h⟩ := Value.bind_eq_ok.mp h
  unfold conclude at h
  dsimp only at h
  split at h
  · rename_i hfaults _
    obtain ⟨m, hm, rfl⟩ := Value.map_eq_ok.mp h
    exact sound_of_build (clean_of_conclude hfaults) hm
  · cases h
  · cases h

end DesignTokens.DtcgThemes

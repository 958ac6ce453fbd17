import DesignTokens.Proofs.Manifest.Themes

/-!
# What the conditions of themes become

A theme manifest that is read declares sources with different names and themes with conditions
(`Declares`).  The sources that no theme names become base sets.  The other ones are spread over
modifiers: one for each condition key, with an option for each value of the key, which has the files
of the sources that the themes with that condition name (`Gathers`).  Keys, values and sources come
in the order of first mention (`FirstSeen`), and none is lost (`parse_conditions`).
-/

namespace DesignTokens

/-! ### Lists in the order of first mention -/

/-- A list of what is mentioned somewhere: everything once, in the order of first mention. -/
structure FirstSeen {α : Type} [DecidableEq α] (mentioned listed : List α) : Prop where
  nodup : listed.Nodup
  mem_iff : ∀ a, a ∈ listed ↔ a ∈ mentioned
  order : listed.Pairwise fun a b => mentioned.idxOf a < mentioned.idxOf b

section

variable {α : Type} [DecidableEq α]

/-- What comes first among the items of a kind comes first among all. -/
theorem idxOf_lt_of_filter (kind : α → Bool) {a b : α} (ha : kind a = true) (hb : kind b = true)
    {items : List α} (h : (items.filter kind).idxOf a < (items.filter kind).idxOf b) :
    items.idxOf a < items.idxOf b := by
  induction items with
  | nil => exact h
  | cons c items ih =>
    by_cases hca : c = a
    · subst hca
      have hcb : c ≠ b := by
        rintro rfl
        exact Nat.lt_irrefl _ h
      rw [List.idxOf_cons_self, List.idxOf_cons_ne _ hcb]
      exact Nat.succ_pos _
    · by_cases hcb : c = b
      · subst hcb
        rw [List.filter_cons_of_pos hb, List.idxOf_cons_self] at h
        exact absurd h (Nat.not_lt_zero _)
      · rw [List.idxOf_cons_ne _ hca, List.idxOf_cons_ne _ hcb]
        refine Nat.succ_lt_succ (ih ?_)
        cases hc : kind c with
        | false => rwa [List.filter_cons_of_neg (by simp [hc])] at h
        | true =>
          rw [List.filter_cons_of_pos hc, List.idxOf_cons_ne _ hca, List.idxOf_cons_ne _ hcb] at h
          exact Nat.lt_of_succ_lt_succ h

/-- Leaving out repetitions keeps the order of first mention. -/
theorem firstSeen_eraseDups (mentioned : List α) : FirstSeen mentioned mentioned.eraseDups := by
  refine ⟨Graph.nodup_eraseDups _, fun _ => List.mem_eraseDups, ?_⟩
  induction hn : mentioned.length using Nat.strongRecOn generalizing mentioned with
  | ind n ih =>
    cases mentioned with
    | nil =>
      rw [List.eraseDups_nil]
      exact .nil
    | cons a items =>
      have hkind : ∀ b ∈ (items.filter fun b => !b == a).eraseDups, (!b == a) = true :=
        fun b hb => (List.mem_filter.mp (List.mem_eraseDups.mp hb)).2
      have hother : ∀ b ∈ (items.filter fun b => !b == a).eraseDups, a ≠ b := by
        rintro b hb rfl
        simpa using hkind _ hb
      have hshort : (items.filter fun b => !b == a).length < n :=
        hn ▸ Nat.lt_succ_of_le (List.length_filter_le _ _)
      rw [List.eraseDups_cons, List.pairwise_cons]
      refine ⟨fun b hb => ?_, (ih _ hshort _ rfl).imp_of_mem fun {b c} hb hc hlt => ?_⟩
      · rw [List.idxOf_cons_self, List.idxOf_cons_ne _ (hother b hb)]
        exact Nat.succ_pos _
      · rw [List.idxOf_cons_ne _ (hother b hb), List.idxOf_cons_ne _ (hother c hc)]
        have hfirst : items.idxOf b < items.idxOf c :=
          idxOf_lt_of_filter (fun d => !d == a) (hkind b hb) (hkind c hc) hlt
        exact Nat.succ_lt_succ hfirst

end

namespace DtcgThemes

variable {fs : FileSystem} {data : Table String Value} {v : Value}

/-! ### The declared sources -/

theorem eq_list_of_texts? {texts : List String} (h : v.texts? = some texts) :
    v = .list (texts.map .text) := by
  cases v with
  | list items =>
    refine congrArg Value.list ?_
    change items.mapM Value.text? = some texts at h
    induction items generalizing texts with
    | nil =>
      cases h
      rfl
    | cons item items ih =>
      rw [List.mapM_cons] at h
      obtain ⟨text, htext, hrest⟩ := Option.bind_eq_some_iff.mp h
      obtain ⟨others, hothers, he⟩ := Option.bind_eq_some_iff.mp hrest
      cases he
      rw [eq_text htext, ih hothers]
      rfl
  | _ => cases h

/-- A list of patterns without faults holds texts, and these are the patterns. -/
theorem patterns_of_faults {place : String} {patterns : Value} {found : Option (List String)}
    (hfaults : patternFaults place patterns = []) (hfound : patternsOf patterns = .ok found) :
    ∃ texts, found = some texts ∧ patterns = .list (texts.map .text) := by
  unfold patternFaults at hfaults
  unfold patternsOf at hfound
  split at hfaults
  · cases hfaults
  · rename_i hstated
    rw [if_neg hstated] at hfound
    split at hfaults
    · cases hfaults
    · rename_i htexts
      obtain ⟨texts, htexts⟩ : ∃ texts, patterns.texts? = some texts :=
        Option.ne_none_iff_exists'.mp (mt Option.isNone_iff_eq_none.mpr htexts)
      exact ⟨texts, (Except.ok.inj hfound).symm.trans htexts, eq_list_of_texts? htexts⟩

theorem new_of_nameFaults {d : Inventory} {place name : String}
    (h : nameFaults d place (.text name) = .ok []) : name ∉ d.files.keys := by
  intro hknown
  have hhas : d.files.has name = true := (Table.has_iff_mem_keys _ _).mpr hknown
  unfold nameFaults at h
  split at h
  · cases h
  · have hknows : d.knows (.text name) = .ok true := congrArg Except.ok hhas
    rw [hknows] at h
    cases h

/-- What is stored without a name that is no text has a text for its name. -/
theorem of_put {d e : Inventory} {name : Value} {files : List String}
    (h : d.put name files = .ok e) (hunnamed : e.unnamed = []) :
    e.faults = d.faults ∧ d.unnamed = [] ∧
      ∃ text, name = .text text ∧ e.files = d.files.put text files := by
  unfold Inventory.put at h
  split at h
  · cases h
    exact ⟨rfl, hunnamed, _, rfl, rfl⟩
  · cases h
  · cases h
  · cases h
    exact absurd hunnamed (List.append_ne_nil_of_right_ne_nil _ (List.cons_ne_nil _ _))

/-- A source that is read without faults declares its name and its patterns as texts, and it is the
last of the known ones. -/
theorem of_readSource {d e : Inventory} {place : String}
    (h : readSource fs none d place v = .ok e) (hfaults : e.faults = [])
    (hunnamed : e.unnamed = []) :
    d.faults = [] ∧ d.unnamed = [] ∧ ∃ name patterns,
      Source.ofValue v = .ok ⟨.text name, .list (patterns.map .text)⟩ ∧
        name ∉ d.files.keys ∧ e.files = d.files ++ [(name, patterns)] := by
  obtain ⟨⟨name, patterns⟩, hdeclared, hrest⟩ := Value.bind_eq_ok.mp h
  obtain ⟨faults, hname, hrest⟩ := Value.bind_eq_ok.mp hrest
  obtain ⟨found, hfound, hrest⟩ := Value.bind_eq_ok.mp hrest
  cases found with
  | none =>
    cases hrest
    have hpatterns := (List.append_eq_nil_iff.mp (List.append_eq_nil_iff.mp hfaults).2).2
    obtain ⟨texts, hnone, -⟩ := patterns_of_faults hpatterns hfound
    cases hnone
  | some files =>
    obtain ⟨expanded, hexpanded, hput⟩ := Value.bind_eq_ok.mp hrest
    rw [expandPatterns_none] at hexpanded
    obtain rfl := Except.ok.inj hexpanded
    obtain ⟨hsame, hempty, text, rfl, hfiles⟩ := of_put hput hunnamed
    obtain ⟨hd, hnew⟩ := List.append_eq_nil_iff.mp (hsame.symm.trans hfaults)
    obtain ⟨rfl, hpatterns⟩ := List.append_eq_nil_iff.mp hnew
    obtain ⟨texts, he, rfl⟩ := patterns_of_faults hpatterns hfound
    obtain rfl := Option.some.inj he
    refine ⟨hd, hempty, text, files, hdeclared, new_of_nameFaults hname, hfiles.trans ?_⟩
    exact Table.put_of_not_mem files (new_of_nameFaults hname)

/-- Sources that are read without faults declare their names and patterns as texts, and no two have
the same name. -/
theorem of_readSources {d e : Inventory} {index : Nat} {items : List Value}
    (h : readSources fs none d index items = .ok e) (hfaults : e.faults = [])
    (hunnamed : e.unnamed = []) :
    d.faults = [] ∧ d.unnamed = [] ∧ (d.files.keys.Nodup → e.files.keys.Nodup) ∧
      ∃ sources, e.files = d.files ++ sources ∧
        List.Forall₂ (fun item entry =>
          Source.ofValue item = .ok ⟨.text entry.1, .list (entry.2.map .text)⟩) items sources := by
  induction items generalizing d index with
  | nil =>
    cases h
    exact ⟨hfaults, hunnamed, id, [], (List.append_nil _).symm, .nil⟩
  | cons item items ih =>
    obtain ⟨known, hfirst, hrest⟩ := Value.bind_eq_ok.mp h
    obtain ⟨hknown, hnamed, hkeys, sources, hfiles, hsources⟩ := ih hrest
    obtain ⟨hd, hempty, name, patterns, hdeclared, hnew, hmore⟩ :=
      of_readSource hfirst hknown hnamed
    refine ⟨hd, hempty, fun hnodup => hkeys ?_, (name, patterns) :: sources, ?_, ?_⟩
    · rw [hmore, Table.keys_append]
      refine List.nodup_append.mpr ⟨hnodup, List.nodup_singleton name, ?_⟩
      intro other hother last hlast
      obtain rfl : last = name := List.mem_singleton.mp hlast
      rintro rfl
      exact hnew hother
    · rw [hfiles, hmore, List.append_assoc]
      rfl
    · exact .cons hdeclared hsources

/-! ### The declared themes -/

theorem eq_map_text {items : List Value} (h : ∀ v ∈ items, ∃ text, v = .text text) :
    items = (items.filterMap Value.text?).map .text := by
  induction items with
  | nil => rfl
  | cons v items ih =>
    obtain ⟨⟨text, rfl⟩, hitems⟩ := List.forall_mem_cons.mp h
    exact congrArg (Value.text text :: ·) (ih hitems)

/-- What a theme without faults holds: conditions, and nothing but texts in its conditions and its
list of sources. -/
structure Theme.Plain (t : Theme) : Prop where
  nonempty : t.conditions ≠ []
  conditions : ∀ entry ∈ t.conditions, ∃ text, entry.2 = .text text
  sources : t.sources = t.sourceNames.map .text

theorem Theme.plain_of_faults {known : Table String (List String)} {place : String} {t : Theme}
    (h : t.faults known place = []) : t.Plain := by
  have hclean := Theme.clean_of_faults h
  unfold Theme.faults at h
  obtain ⟨hfirst, hsources⟩ := List.append_eq_nil_iff.mp h
  obtain ⟨hsecond, -⟩ := List.append_eq_nil_iff.mp hfirst
  obtain ⟨hthird, -⟩ := List.append_eq_nil_iff.mp hsecond
  obtain ⟨-, hconditions⟩ := List.append_eq_nil_iff.mp hthird
  refine ⟨?_, fun entry hentry => ?_, ?_⟩
  · intro hnone
    rw [hnone] at hconditions
    cases hconditions
  · obtain ⟨text, htext⟩ := Option.isSome_iff_exists.mp (hclean.conditions entry hentry)
    exact ⟨text, eq_text htext⟩
  · refine eq_map_text fun v hv => ?_
    have hnone := List.filterMap_eq_nil_iff.mp hsources v hv
    cases htext : v.text? with
    | some text => exact ⟨text, eq_text htext⟩
    | none =>
      rw [htext] at hnone
      cases hnone

theorem Theme.Plain.exists_condition {t : Theme} (h : t.Plain) {key : String}
    (hkey : key ∈ t.conditions.keys) : ∃ value, t.condition? key = some value := by
  obtain ⟨v, hv⟩ := Table.exists_get?_of_mem_keys hkey
  obtain ⟨value, hvalue⟩ := h.conditions _ (Table.mem_of_get? hv)
  exact ⟨value, Option.bind_eq_some_iff.mpr ⟨v, hv, congrArg Value.text? hvalue⟩⟩

/-! ### What the themes become -/

variable {themes : List Theme} {known : Table String (List String)} {key : String}

/-- The modifier of a condition key: its options are the values of the key, and an option has the
files of the sources that the themes name which have that condition. -/
structure Gathers (sources : Table String (List String)) (themes : List Theme) (key : String)
    (modifier : Modifier) : Prop where
  single : ∃ options values, modifier = .oneOf options values none
  options : FirstSeen (themes.filterMap (Theme.condition? · key)) modifier.options
  keys : modifier.values.keys = modifier.options
  files : ∀ option ∈ modifier.options, ∃ picked : Table String (List String),
    FirstSeen ((themes.filter fun t => t.condition? key = some option).flatMap Theme.sourceNames)
        picked.keys ∧
      (∀ source ∈ picked, source ∈ sources) ∧ modifier.filesOf option = picked.values.flatten

theorem exists_picked {names files : List String} (h : filesOf known names = .ok files) :
    ∃ picked : Table String (List String),
      picked.keys = names ∧ (∀ source ∈ picked, source ∈ known) ∧
        files = picked.values.flatten := by
  induction names generalizing files with
  | nil =>
    cases h
    exact ⟨[], rfl, nofun, rfl⟩
  | cons name names ih =>
    unfold filesOf at h
    split at h
    · cases h
    · rename_i first hfirst
      obtain ⟨others, hothers, rfl⟩ := Value.map_eq_ok.mp h
      obtain ⟨picked, hkeys, hknown, rfl⟩ := ih hothers
      refine ⟨(name, first) :: picked, congrArg (name :: ·) hkeys, ?_, rfl⟩
      exact List.forall_mem_cons.mpr ⟨Table.mem_of_get? hfirst, hknown⟩

theorem of_mem_valueFiles {values : List String} {files : Table String (List String)}
    (h : valueFiles themes known key values = .ok files) :
    ∀ entry ∈ files, filesOf known (sourcesFor themes key entry.1) = .ok entry.2 := by
  induction values generalizing files with
  | nil =>
    cases h
    exact nofun
  | cons value values ih =>
    obtain ⟨first, hfirst, hrest⟩ := Value.bind_eq_ok.mp h
    obtain ⟨others, hothers, hfiles⟩ := Value.bind_eq_ok.mp hrest
    cases hfiles
    exact List.forall_mem_cons.mpr ⟨hfirst, ih hothers⟩

/-- The modifier that is made of a condition key. -/
theorem gathers_of_valueFiles {files : Table String (List String)}
    (h : valueFiles themes known key (conditionValues themes key) = .ok files) :
    Gathers known themes key (.oneOf (conditionValues themes key) files none) := by
  have hkeys : files.keys = conditionValues themes key := keys_of_valueFiles h
  have hoptions := firstSeen_eraseDups (themes.filterMap (Theme.condition? · key))
  refine ⟨⟨_, _, rfl⟩, hoptions, hkeys, fun option hoption => ?_⟩
  obtain ⟨found, hfound⟩ : ∃ found, files.get? option = some found :=
    Table.exists_get?_of_mem_keys (hkeys ▸ hoption)
  obtain ⟨picked, hnames, hpicked, he⟩ :=
    exists_picked (of_mem_valueFiles h _ (Table.mem_of_get? hfound))
  refine ⟨picked, hnames ▸ firstSeen_eraseDups _, hpicked, ?_⟩
  show (files.get? option).getD [] = _
  rw [hfound]
  exact he

theorem gathers_of_conditionModifiers {keys : List String} {modifiers : Table String Modifier}
    (h : conditionModifiers themes known keys = .ok modifiers) :
    modifiers.keys = keys ∧ ∀ entry ∈ modifiers, Gathers known themes entry.1 entry.2 := by
  induction keys generalizing modifiers with
  | nil =>
    cases h
    exact ⟨rfl, nofun⟩
  | cons key keys ih =>
    obtain ⟨files, hfiles, hrest⟩ := Value.bind_eq_ok.mp h
    obtain ⟨others, hothers, he⟩ := Value.bind_eq_ok.mp hrest
    cases he
    obtain ⟨hkeys, hgathers⟩ := ih hothers
    refine ⟨congrArg (key :: ·) hkeys, List.forall_mem_cons.mpr ⟨?_, hgathers⟩⟩
    exact gathers_of_valueFiles hfiles

/-- What a theme names is among the files of an option. -/
theorem exists_option_of_named {sources : Table String (List String)}
    {modifiers : Table String Modifier} {t : Theme} {source : String × List String}
    (hkeys : FirstSeen (themes.flatMap fun t => t.conditions.keys) modifiers.keys)
    (hgathers : ∀ entry ∈ modifiers, Gathers sources themes entry.1 entry.2)
    (hnames : sources.keys.Nodup) (ht : t ∈ themes) (hplain : t.Plain) (hsource : source ∈ sources)
    (hnamed : source.1 ∈ t.sourceNames) :
    ∃ entry ∈ modifiers, ∃ option ∈ entry.2.options, source.2 <:+: entry.2.filesOf option := by
  obtain ⟨⟨key, v⟩, others, hconditions⟩ := List.exists_cons_of_ne_nil hplain.nonempty
  have hkey : key ∈ t.conditions.keys := hconditions ▸ List.mem_cons_self
  obtain ⟨option, hoption⟩ := hplain.exists_condition hkey
  obtain ⟨entry, hentry, rfl⟩ : ∃ entry ∈ modifiers, entry.1 = key :=
    List.mem_map.mp ((hkeys.mem_iff key).mpr (List.mem_flatMap.mpr ⟨t, ht, hkey⟩))
  have hgather := hgathers entry hentry
  have hmem : option ∈ entry.2.options :=
    (hgather.options.mem_iff option).mpr (List.mem_filterMap.mpr ⟨t, ht, hoption⟩)
  obtain ⟨picked, hpicked, hknown, hfiles⟩ := hgather.files option hmem
  refine ⟨entry, hentry, option, hmem, ?_⟩
  have hmentioned : source.1 ∈
      (themes.filter fun t => t.condition? entry.1 = some option).flatMap Theme.sourceNames :=
    List.mem_flatMap.mpr ⟨t, List.mem_filter.mpr ⟨ht, by simp [hoption]⟩, hnamed⟩
  obtain ⟨⟨name, files⟩, hfound, hname⟩ := List.mem_map.mp ((hpicked.mem_iff _).mpr hmentioned)
  -- The source that was picked is the one with that name.
  have hsame : files = source.2 := by
    have hget := Table.get?_of_mem hnames (hknown _ hfound)
    rw [show name = source.1 from hname, Table.get?_of_mem hnames hsource] at hget
    exact (Option.some.inj hget).symm
  rw [hfiles, ← hsame]
  exact List.infix_of_mem_flatten (List.mem_map_of_mem hfound)

/-- What data declare that are read without faults: sources with different names and lists of
patterns, and themes with conditions. -/
structure Declares (data : Table String Value) (sources : Table String (List String))
    (themes : List Theme) : Prop where
  fromSources : ∃ listed items, Value.demandMember (.object data) "sources" = .ok listed ∧
    listed.demandItems = .ok items ∧ List.Forall₂ (fun item entry =>
      Source.ofValue item = .ok ⟨.text entry.1, .list (entry.2.map .text)⟩) items sources
  distinct : sources.keys.Nodup
  fromThemes : ∃ items, themeItems data = .ok items ∧ Theme.ofValues items = .ok themes
  plain : ∀ t ∈ themes, t.Plain

theorem of_build {m : Manifest} {source : Option String}
    (h : build data source themes known = .ok m) :
    m.sets = baseSets themes known ∧
      conditionModifiers themes known (conditionKeys themes) = .ok m.modifiers := by
  obtain ⟨modifiers, hmodifiers, hbuild⟩ := Value.bind_eq_ok.mp h
  obtain ⟨name, description, version, rfl⟩ := Manifest.eq_of_withDescription hbuild
  exact ⟨rfl, hmodifiers⟩

/-- What was read was made of sources and themes that the data declare. -/
theorem exists_declared {read : ParsedManifest} (h : parse fs data none = .ok read) :
    ∃ sources themes, Declares data sources themes ∧
      build data none themes sources = .ok read.manifest := by
  rw [parse_eq] at h
  obtain ⟨listed, hlisted, h⟩ := Value.bind_eq_ok.mp h
  obtain ⟨items, hitems, h⟩ := Value.bind_eq_ok.mp h
  obtain ⟨d, hread, h⟩ := Value.bind_eq_ok.mp h
  obtain ⟨themeValues, hvalues, h⟩ := Value.bind_eq_ok.mp h
  obtain ⟨themes, hthemes, h⟩ := Value.bind_eq_ok.mp h
  unfold conclude at h
  dsimp only at h
  split at h
  · rename_i hfaults hunnamed
    obtain ⟨m, hm, rfl⟩ := Value.map_eq_ok.mp h
    obtain ⟨hrest, -⟩ := List.append_eq_nil_iff.mp hfaults
    obtain ⟨hknown, hthemeFaults⟩ := List.append_eq_nil_iff.mp hrest
    obtain ⟨-, -, hnames, sources, hfiles, hsources⟩ := of_readSources hread hknown hunnamed
    obtain rfl : d.files = sources := hfiles
    refine ⟨d.files, themes, ⟨⟨listed, items, hlisted, hitems, hsources⟩, hnames List.nodup_nil,
      ⟨themeValues, hvalues, hthemes⟩, fun t ht => ?_⟩, hm⟩
    obtain ⟨place, hplace⟩ := faults_eq_nil hthemeFaults t ht
    exact Theme.plain_of_faults hplace
  · cases h
  · cases h

/-- **What the conditions of themes become.**  The base sets are the sources that no theme names,
and the modifiers are the condition keys, each with its values for options; an option has the files
of the sources of the themes with that condition.  So no declared source is lost. -/
theorem parse_conditions {read : ParsedManifest} (h : parse fs data none = .ok read) :
    ∃ sources themes, Declares data sources themes ∧
      read.manifest.sets = ((sources.filter fun source =>
        source.1 ∉ themes.flatMap Theme.sourceNames).map fun source =>
          ⟨some source.1, source.2⟩) ∧
      FirstSeen (themes.flatMap fun t => t.conditions.keys) read.manifest.modifiers.keys ∧
      (∀ entry ∈ read.manifest.modifiers, Gathers sources themes entry.1 entry.2) ∧
      ∀ source ∈ sources, ⟨some source.1, source.2⟩ ∈ read.manifest.sets ∨
        ∃ entry ∈ read.manifest.modifiers, ∃ option ∈ entry.2.options,
          source.2 <:+: entry.2.filesOf option := by
  obtain ⟨sources, themes, hdeclares, hbuild⟩ := exists_declared h
  obtain ⟨hbase, hmodifiers⟩ := of_build hbuild
  obtain ⟨hkeys, hgathers⟩ := gathers_of_conditionModifiers hmodifiers
  have hsets : read.manifest.sets = ((sources.filter fun source =>
      source.1 ∉ themes.flatMap Theme.sourceNames).map fun source =>
        ⟨some source.1, source.2⟩) := by
    rw [hbase, baseSets]
    refine congrArg _ (List.filter_congr fun source _ => ?_)
    rw [List.contains_eq_mem, decide_not]
  have hseen : FirstSeen (themes.flatMap fun t => t.conditions.keys) read.manifest.modifiers.keys :=
    hkeys ▸ firstSeen_eraseDups _
  refine ⟨sources, themes, hdeclares, hsets, hseen, hgathers, fun source hsource => ?_⟩
  by_cases hthemed : source.1 ∈ themes.flatMap Theme.sourceNames
  · obtain ⟨t, ht, hnamed⟩ := List.mem_flatMap.mp hthemed
    exact .inr (exists_option_of_named hseen hgathers hdeclares.distinct ht (hdeclares.plain t ht)
      hsource hnamed)
  · refine .inl (hsets ▸ List.mem_map_of_mem (List.mem_filter.mpr ⟨hsource, ?_⟩))
    simpa using hthemed

/-- A theme of two modes and a density: the dense source belongs to both modes. -/
def lightAndDense : Table String Value :=
  [("sources", .list [source "core", source "light", source "dark", source "dense"]),
   ("themes", .list [
     theme "1" [("mode", .text "light")] ["dense", "light"],
     theme "2" [("density", .text "compact"), ("mode", .text "dark")] ["dark", "dense"],
     theme "3" [("mode", .text "light")] ["light", "dense"]])]
where
  source (name : String) : Value :=
    .object [("name", .text name), ("include", .list [.text (name ++ ".json")])]
  theme (id : String) (conditions : Table String Value) (sources : List String) : Value :=
    .object [("id", .text id), ("name", .text id), ("conditions", .object conditions),
      ("sources", .list (sources.map .text))]

theorem parse_conditions_lightAndDense :
    ∃ read, parse default lightAndDense none = .ok read ∧
      read.manifest.sets = [⟨some "core", ["core.json"]⟩] ∧
      read.manifest.modifiers = [
        ("mode", .oneOf ["light", "dark"]
          [("light", ["dense.json", "light.json"]), ("dark", ["dark.json", "dense.json"])] none),
        ("density", .oneOf ["compact"] [("compact", ["dark.json", "dense.json"])] none)] ∧
      ∃ sources themes, Declares lightAndDense sources themes ∧
        FirstSeen (themes.flatMap fun t => t.conditions.keys) ["mode", "density"] ∧
        ∀ source ∈ sources, ⟨some source.1, source.2⟩ ∈ read.manifest.sets ∨
          ∃ entry ∈ read.manifest.modifiers, ∃ option ∈ entry.2.options,
            source.2 <:+: entry.2.filesOf option := by
  obtain ⟨read, hread⟩ : ∃ read, parse default lightAndDense none = .ok read := ⟨_, rfl⟩
  obtain ⟨sources, themes, hdeclares, -, hseen, -, hcovered⟩ := parse_conditions hread
  refine ⟨read, hread, ?_, ?_, sources, themes, hdeclares, ?_, hcovered⟩
  · cases hread
    rfl
  · cases hread
    rfl
  · cases hread
    exact hseen

end DtcgThemes

end DesignTokens

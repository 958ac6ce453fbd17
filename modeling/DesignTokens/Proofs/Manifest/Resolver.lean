import DesignTokens.Manifest.DtcgResolver
import DesignTokens.Proofs.Manifest.Rejections
import DesignTokens.Proofs.Manifest.Sound
import DesignTokens.Proofs.Merge.Overlay
import DesignTokens.Proofs.Reference.Substitution

/-!
# Resolver manifests are sound

The reading of a resolver manifest collects faults in a draft, from which none is taken
away again, and what the faults and warnings show comes from the data (`Draft.Extends`).  So a
reading that ends without faults has made every check, the first one included: there is a version
when it is asked for (`parse_judged`).  The modifiers are well formed from the moment they are
added (`Modifiers`).
-/

namespace DesignTokens

namespace Draft

variable {d e f : Draft} {ns ns' : List Int}

/-- A draft whose faults and warnings show no other integers than those of a list. -/
structure Within (ns : List Int) (d : Draft) : Prop where
  faults : ShowsFrom ns d.faults
  warnings : ∀ w ∈ d.warnings, ∀ n, w.unwritable? = some n → n ∈ ns ∧ isWritable n = false

/-- A draft that has the faults of another one before its own, and shows no more than that one and
some data with the integers of a list. -/
structure Extends (ns : List Int) (d e : Draft) : Prop where
  faults : d.faults <+: e.faults
  within : ∀ ns', ns ⊆ ns' → d.Within ns' → e.Within ns'

theorem Extends.refl (d : Draft) : Extends ns d d := ⟨List.prefix_refl _, fun _ _ => id⟩

theorem Extends.trans (h : Extends ns d e) (h' : Extends ns e f) : Extends ns d f :=
  ⟨h.faults.trans h'.faults, fun more hmore hd => h'.within more hmore (h.within more hmore hd)⟩

theorem Extends.mono (h : Extends ns d e) (hsubset : ns ⊆ ns') : Extends ns' d e :=
  ⟨h.faults, fun more hmore => h.within more (List.Subset.trans hsubset hmore)⟩

theorem extends_fault (d : Draft) {place : String} {complaint : Complaint}
    (h : ShowsFrom ns [⟨place, complaint⟩]) : Extends ns d (d.fault place complaint) where
  faults := List.prefix_append _ _
  within _ hmore hd :=
    ⟨hd.faults.append fun f hf v hv => List.Subset.trans (h f hf v hv) hmore, hd.warnings⟩

theorem extends_putInline (d : Draft) (path : String) (tokens : Value) :
    Extends ns d (d.putInline path tokens) :=
  ⟨List.prefix_refl _, fun _ _ hd => ⟨hd.faults, hd.warnings⟩⟩

theorem extends_warn (d : Draft) {warnings : List SetWarning}
    (h : ∀ w ∈ warnings, ∀ n, w.unwritable? = some n → n ∈ ns ∧ isWritable n = false) :
    Extends ns d (warnings.foldl Draft.warn d) := by
  induction warnings generalizing d with
  | nil => exact .refl d
  | cons warning warnings ih =>
    obtain ⟨hwarning, hwarnings⟩ := List.forall_mem_cons.mp h
    have hfirst : Extends ns d (d.warn warning) := by
      refine ⟨List.prefix_refl _, fun more hmore hd => ⟨hd.faults, fun w hw n hn => ?_⟩⟩
      rcases List.mem_append.mp hw with hw | hw
      · exact hd.warnings w hw n hn
      · rw [List.mem_singleton.mp hw] at hn
        exact (hwarning n hn).imp_left fun hmem => hmore hmem
    exact hfirst.trans (ih (d.warn warning) hwarnings)

theorem Extends.faults_ne_nil (h : Extends ns d e) (hd : d.faults ≠ []) : e.faults ≠ [] :=
  fun he => hd (List.prefix_nil.mp (he ▸ h.faults))

end Draft

namespace DtcgResolver

open Draft

variable {d : Draft} {known : Table String Modifier} {data : Table String Value} {ns : List Int}

/-! ### Faults stay -/

/-- Of a set only the warning about its namespace shows a value. -/
theorem of_setWarnings {place : String} {raw : Table String Value} {source : Option String}
    {tokens : Option Value} :
    ∀ w ∈ setWarnings place raw source tokens, ∀ n, w.unwritable? = some n →
      n ∈ (Value.object raw).integers ∧ isWritable n = false := by
  intro w hw n hn
  rcases List.mem_append.mp hw with hw | hw
  · split at hw
    · rw [List.mem_singleton.mp hw] at hn
      cases hn
    · cases hw
  · obtain ⟨name, hname, rfl⟩ := Option.map_eq_some_iff.mp (Option.mem_toList.mp hw)
    have hget : raw.get? "namespace" = some name := by
      unfold Upft.present at hname
      split at hname
      · cases hname
      · exact hname
    exact (Value.of_unwritable? hn).imp_left fun hmem => Value.integers_get?_subset hget hmem

theorem extends_readSet (d : Draft) (madeUp place : String) (raw : Table String Value)
    (source : Option String) (tokens : Option Value) :
    Extends (Value.object raw).integers d (readSet d madeUp place raw source tokens).1 := by
  have hwarn : Extends (Value.object raw).integers d
      ((setWarnings place raw source tokens).foldl Draft.warn d) := extends_warn d of_setWarnings
  cases source with
  | some file => exact hwarn
  | none =>
    cases tokens with
    | some v => exact hwarn.trans (extends_putInline _ _ _)
    | none => exact hwarn.trans (extends_fault _ (.plain rfl))

theorem extends_setFiles (d : Draft) (madeUp place : String) (v : Value) :
    Extends v.integers d (setFiles d madeUp place v).1 := by
  cases v with
  | object members =>
    unfold setFiles
    dsimp only
    split
    · exact extends_fault _ (.plain rfl)
    · split
      · exact extends_fault _ (.plain rfl)
      · exact extends_readSet _ _ _ _ _ _
  | _ => exact extends_fault _ (.plain rfl)

theorem extends_itemFiles (d : Draft) (madeUp place : String) (index : Nat) (items : List Value) :
    Extends (Value.list items).integers d (itemFiles d madeUp place index items).1 := by
  induction items generalizing d index with
  | nil => exact .refl d
  | cons v items ih =>
    exact ((extends_setFiles _ _ _ _).mono (Value.integers_item_subset List.mem_cons_self)).trans
      ((ih _ _).mono (Value.integers_tail_subset v items))

theorem extends_listFiles (d : Draft) (madeUp place : String) (v : Value) :
    Extends v.integers d (listFiles d madeUp place v).1 := by
  cases v with
  | list items => exact extends_itemFiles _ _ _ _ _
  | _ => exact extends_fault _ (.plain rfl)

theorem extends_valueFiles (d : Draft) (name place : String) (values : List String)
    (members : List (String × Value)) :
    Extends (Value.object members).integers d (valueFiles d name place values members).1 := by
  induction members generalizing d with
  | nil => exact .refl d
  | cons member members ih =>
    have hothers := Value.integers_others_subset member members
    have hfirst : member.2.integers ⊆ (Value.object (member :: members)).integers :=
      Value.integers_member_subset List.mem_cons_self
    obtain ⟨value, sets⟩ := member
    unfold valueFiles
    split
    · exact ((extends_listFiles _ _ _ _).mono hfirst).trans ((ih _).mono hothers)
    · exact (extends_fault _ (.plain rfl)).trans ((ih _).mono hothers)

theorem extends_enumerated (d : Draft) (name place : String) (raw : Table String Value) :
    Extends (Value.object raw).integers d (enumerated d name place raw).1 := by
  unfold enumerated
  split
  · exact extends_fault _ (.plain rfl)
  · exact extends_fault _ (.plain rfl)
  · cases hsets : raw.get? "sets" with
    | none => exact .refl d
    | some v =>
      have hv := Value.integers_get?_subset hsets
      cases v with
      | object members => exact (extends_valueFiles _ _ _ _ _).mono hv
      | _ => exact extends_fault _ (.plain rfl)

theorem extends_optional (d : Draft) (name place : String) (raw : Table String Value) :
    Extends (Value.object raw).integers d (optional d name place raw).1 := by
  unfold optional
  cases hinclude : raw.get? "include" with
  | none => exact (extends_listFiles _ _ _ _).mono (List.nil_subset _)
  | some v => exact (extends_listFiles _ _ _ _).mono (Value.integers_get?_subset hinclude)

theorem extends_namedModifier (d : Draft) (name place : String) (raw : Table String Value) :
    Extends (Value.object raw).integers d (namedModifier d name place raw).1 := by
  unfold namedModifier
  split
  · exact extends_enumerated _ _ _ _
  · exact extends_optional _ _ _ _
  · exact extends_fault _ (.plain rfl)

theorem extends_addModifier (d : Draft) (known : Table String Modifier) (place : String)
    (v : Value) : Extends v.integers d (addModifier d known place v).1 := by
  cases v with
  | object members =>
    unfold addModifier
    dsimp only
    split
    · exact extends_fault _ (.plain rfl)
    · rename_i name _
      split
      · refine extends_fault _ (.single fun v hv => ?_)
        rw [List.mem_singleton.mp hv]
        exact List.nil_subset _
      · have hnamed := extends_namedModifier d name place members
        split
        · rename_i hm
          rwa [hm] at hnamed
        · rename_i hm
          rwa [hm] at hnamed
  | _ => exact extends_fault _ (.plain rfl)

theorem extends_addModifiers (d : Draft) (known : Table String Modifier) (index : Nat)
    (items : List Value) :
    Extends (Value.list items).integers d (addModifiers d known index items).1 := by
  induction items generalizing d known index with
  | nil => exact .refl d
  | cons v items ih =>
    exact ((extends_addModifier _ _ _ _).mono (Value.integers_item_subset List.mem_cons_self)).trans
      ((ih _ _ _).mono (Value.integers_tail_subset v items))

theorem extends_addSets (d : Draft) (index : Nat) (items : List Value) :
    Extends (Value.list items).integers d (addSets d index items).1 := by
  induction items generalizing d index with
  | nil => exact .refl d
  | cons v items ih =>
    exact ((extends_setFiles _ _ _ _).mono (Value.integers_item_subset List.mem_cons_self)).trans
      ((ih _ _).mono (Value.integers_tail_subset v items))

/-! ### Modifiers -/

theorem mem_values_of_valueFiles {name place option : String} {values : List String}
    {members : List (String × Value)}
    (h : option ∈ (valueFiles d name place values members).2.keys) : option ∈ values := by
  induction members generalizing d with
  | nil => cases h
  | cons member members ih =>
    obtain ⟨value, sets⟩ := member
    unfold valueFiles at h
    split at h
    · rename_i hvalue
      rcases List.mem_cons.mp h with rfl | hothers
      · exact List.contains_iff_mem.mp hvalue
      · exact ih hothers
    · exact ih h

theorem wellFormed_of_enumerated {name place : String} {raw : Table String Value} {m : Modifier}
    (h : (enumerated d name place raw).2 = some m) : m.WellFormed := by
  unfold enumerated at h
  split at h
  · cases h
  · cases h
  · rename_i values hne _
    split at h
    · cases h
      exact ⟨hne, fun option => mem_values_of_valueFiles, nofun⟩
    · cases h

theorem wellFormed_of_namedModifier {name place : String} {raw : Table String Value} {m : Modifier}
    (h : (namedModifier d name place raw).2 = some m) : m.WellFormed := by
  unfold namedModifier at h
  split at h
  · exact wellFormed_of_enumerated h
  · cases h
    exact ⟨List.cons_ne_nil _ _, fun _ => id, nofun⟩
  · cases h

/-- Well formed modifiers, one for each name. -/
structure Modifiers (known : Table String Modifier) : Prop where
  keys : known.keys.Nodup
  wellFormed : ∀ entry ∈ known, entry.2.WellFormed

theorem Modifiers.nil : Modifiers [] := ⟨List.nodup_nil, nofun⟩

theorem Modifiers.put (h : Modifiers known) (name : String) {m : Modifier} (hm : m.WellFormed) :
    Modifiers (known.put name m) := by
  have hkeys : (known.put name m).keys.Nodup := Table.nodup_keys_put h.keys
  refine ⟨hkeys, fun entry hentry => ?_⟩
  have hget := Table.get?_of_mem hkeys hentry
  by_cases hname : entry.1 = name
  · rw [hname, Table.get?_put_self] at hget
    exact Option.some.inj hget ▸ hm
  · rw [Table.get?_put_of_ne _ _ hname] at hget
    exact h.wellFormed entry (Table.mem_of_get? hget)

theorem Modifiers.addModifier (h : Modifiers known) (d : Draft) (place : String) (v : Value) :
    Modifiers (addModifier d known place v).2 := by
  cases v with
  | object members =>
    unfold DtcgResolver.addModifier
    dsimp only
    split
    · exact h
    · split
      · exact h
      · split
        · rename_i hm
          exact h.put _ (wellFormed_of_namedModifier (congrArg Prod.snd hm))
        · exact h
  | _ => exact h

theorem Modifiers.addModifiers (h : Modifiers known) (d : Draft) (index : Nat)
    (items : List Value) : Modifiers (addModifiers d known index items).2 := by
  induction items generalizing d known index with
  | nil => exact h
  | cons v items ih => exact ih (h.addModifier _ _ _) _ _

/-! ### The reading as a whole -/

def versionDraft (data : Table String Value) : Draft :=
  if ((data.get? "version").bind Value.text?).isSome then Draft.empty
  else Draft.empty.fault "" (.missingField "version")

def declaredSets (d : Draft) (data : Table String Value) : Draft × List TokenSet :=
  match data.get? "sets" with
  | some (.list (first :: others)) => addSets d 0 (first :: others)
  | _ => (d.fault "" (.fieldMustBe "sets" .nonEmptyList), [])

def declaredModifiers (d : Draft) (data : Table String Value) : Draft × Table String Modifier :=
  match Value.firstStated [data.get? "modifiers"] with
  | none => (d, [])
  | some (.list items) => addModifiers d [] 0 items
  | some _ => (d.fault "" (.fieldMustBe "modifiers" .list), [])

theorem parse_eq (data : Table String Value) (source : Option String) :
    parse data source =
      let sets := declaredSets (versionDraft data) data
      let modifiers := declaredModifiers sets.1 data
      match modifiers.1.warnings.findSome? SetWarning.unwritable? with
      | some n => .error (.numeral (.unwritable n))
      | none => conclude modifiers.1 data source sets.2 modifiers.2 := rfl

theorem extends_versionDraft (data : Table String Value) :
    Extends ns .empty (versionDraft data) := by
  unfold versionDraft
  split
  · exact .refl _
  · exact extends_fault _ (.plain rfl)

theorem extends_declaredSets (d : Draft) (data : Table String Value) :
    Extends (Value.object data).integers d (declaredSets d data).1 := by
  unfold declaredSets
  split
  · rename_i hsets
    exact (extends_addSets _ _ _).mono (Value.integers_get?_subset hsets)
  · exact extends_fault _ (.plain rfl)

theorem extends_declaredModifiers (d : Draft) (data : Table String Value) :
    Extends (Value.object data).integers d (declaredModifiers d data).1 := by
  unfold declaredModifiers
  split
  · exact .refl d
  · rename_i items hstated
    have hget : data.get? "modifiers" = some (.list items) := 
      List.mem_singleton.mp (Value.firstStated_cases hstated).1 |>.symm
    exact (extends_addModifiers _ _ _ _).mono (Value.integers_get?_subset hget)
  · exact extends_fault _ (.plain rfl)

theorem modifiers_declared (d : Draft) (data : Table String Value) :
    Modifiers (declaredModifiers d data).2 := by
  unfold declaredModifiers
  split
  · exact .nil
  · exact Modifiers.nil.addModifiers _ _ _
  · exact .nil

/-- Without faults there is a version. -/
theorem exists_version
    (h : (declaredModifiers (declaredSets (versionDraft data) data).1 data).1.faults = []) :
    ∃ version, data.get? "version" = some version := by
  have hextends := (extends_declaredSets (versionDraft data) data).trans
    (extends_declaredModifiers _ data)
  by_contra hversion
  have hnone : data.get? "version" = none := by
    cases hget : data.get? "version" with
    | none => rfl
    | some version => exact absurd ⟨version, hget⟩ hversion
  refine hextends.faults_ne_nil ?_ h
  unfold versionDraft
  rw [hnone]
  exact List.cons_ne_nil _ _

theorem within_declared (data : Table String Value) :
    (declaredModifiers (declaredSets (versionDraft data) data).1 data).1.Within
      (Value.object data).integers :=
  (((extends_versionDraft data).trans (extends_declaredSets _ data)).trans
    (extends_declaredModifiers _ data)).within _ (List.Subset.refl _) ⟨.nil, nofun⟩

theorem parse_judged (data : Table String Value) :
    Judged (Value.object data).integers (parse data none) := by
  have hwithin := within_declared data
  rw [parse_eq]
  dsimp only
  split
  · rename_i n hn
    obtain ⟨w, hw, hshown⟩ := List.exists_of_findSome?_eq_some hn
    obtain ⟨hmem, hwritable⟩ := hwithin.warnings w hw n hshown
    exact .unwritable n hmem hwritable
  · unfold conclude
    split
    · rename_i hfaults
      obtain ⟨version, hversion⟩ := exists_version (List.isEmpty_iff.mp hfaults)
      rw [Value.demandMember_object hversion]
      exact (Manifest.withDescription_judged _ _ _).map _
    · rename_i hfaults
      exact .ofManifest _ (fun h => hfaults (List.isEmpty_iff.mpr h)) hwithin.faults

theorem of_parse {source : Option String} {read : ParsedManifest}
    (h : parse data source = .ok read) :
    conclude (declaredModifiers (declaredSets (versionDraft data) data).1 data).1 data source
      (declaredSets (versionDraft data) data).2
      (declaredModifiers (declaredSets (versionDraft data) data).1 data).2 = .ok read := by
  rw [parse_eq] at h
  dsimp only at h
  split at h
  · cases h
  · exact h

/-- What is read from a resolver manifest is a sound manifest. -/
theorem sound_of_parse {source : Option String} {read : ParsedManifest}
    (h : parse data source = .ok read) : read.manifest.Sound := by
  have h := of_parse h
  unfold conclude at h
  split at h
  · obtain ⟨version, -, hread⟩ := Value.bind_eq_ok.mp h
    obtain ⟨m, hm, rfl⟩ := Value.map_eq_ok.mp hread
    obtain ⟨hmodifiers, hgenerate, hdepth⟩ := Manifest.of_withDescription hm
    have hdeclared := modifiers_declared (declaredSets (versionDraft data) data).1 data
    refine ⟨?_, ?_, ?_, ?_⟩
    · rw [hmodifiers]
      exact hdeclared.keys
    · rw [hmodifiers]
      exact hdeclared.wellFormed
    · rw [hgenerate]
      exact nofun
    · rw [hdepth]
      exact Manifest.one_le_defaultMaxDepth
  · cases h

end DtcgResolver

end DesignTokens

import DesignTokens.Proofs.Manifest.Resolver

/-!
# What is collected from a resolver manifest

A resolver manifest lists sets at several places (`sections`): the base sets, the sets of each value
of an `enumerated` modifier and those of an `include` modifier.  A set that holds its tokens itself
gets a made-up path.

If a reading ends without faults, it had none on the way, so each step can be told from the data
alone: it laid the tokens of its sets over those that were there, and it took one file from each set
(`setFiles_eq` and the lemmas behind it).  `parse_inline` says so of the manifest that is read.
-/

namespace DesignTokens.DtcgResolver

open Draft

/-! ### What a manifest declares -/

/-- Where a manifest lists sets: among the base sets, or for an option of a modifier. -/
inductive Place where
  | base
  | option (name option : String)

def Place.front : Place → String
  | .base => "set"
  | .option name value => name ++ "-" ++ value

def madeUpPath (front : String) (index : Nat) : String :=
  front ++ "-" ++ toString index ++ inlineSuffix

def source? (members : Table String Value) : Option String :=
  Context.given ((Upft.present (members.get? "source")).bind Value.text?)

/-- The tokens that a set holds itself. -/
def inlineTokens? : Value → Option Value
  | .object members =>
    if (source? members).isSome then none else Upft.present (Table.get? members "tokens")
  | _ => none

def fileOf (path : String) : Value → String
  | .object members => (source? members).getD path
  | _ => path

/-- The tokens in some sets, by the made-up paths of the sets. -/
def inlinedFrom (front : String) (index : Nat) (items : List Value) : List (String × Value) :=
  (items.zipIdx index).filterMap fun p => (inlineTokens? p.1).map (madeUpPath front p.2, ·)

def filesFrom (front : String) (index : Nat) (items : List Value) : List String :=
  (items.zipIdx index).map fun p => fileOf (madeUpPath front p.2) p.1

def itemsOf (v : Value) : List Value := v.items?.getD []

/-- The places of a modifier with the sets that are listed there. -/
def modifierSections (name : String) (members : Table String Value) :
    List (Place × List Value) :=
  match (members.get? "type").bind Value.text? with
  | some "enumerated" =>
    (((members.get? "sets").getD (.object [])).members?.getD []).map fun m =>
      (.option name m.1, itemsOf m.2)
  | some "include" =>
    [(.option name includeOption, itemsOf ((members.get? "include").getD (.list [])))]
  | _ => []

/-- The places of a modifier by its name. -/
def sectionsOf : Value → List (Place × List Value)
  | .object members =>
    modifierSections (((Table.get? members "name").bind Value.text?).getD "") members
  | _ => []

def statedSets (data : Table String Value) : List Value :=
  ((data.get? "sets").map itemsOf).getD []

def statedModifiers (data : Table String Value) : List Value :=
  ((Value.firstStated [data.get? "modifiers"]).map itemsOf).getD []

/-- The places at which a manifest lists sets, with the sets. -/
def sections (data : Table String Value) : List (Place × List Value) :=
  (.base, statedSets data) :: (statedModifiers data).flatMap sectionsOf

def inlinedAt (places : List (Place × List Value)) : List (String × Value) :=
  places.flatMap fun p => inlinedFrom p.1.front 0 p.2

def filesAt (m : Manifest) : Place → List String
  | .base => m.sets.flatMap TokenSet.files
  | .option name option => ((m.modifiers.get? name).map fun x => x.filesOf option).getD []

theorem inlinedAt_append (a b : List (Place × List Value)) :
    inlinedAt (a ++ b) = inlinedAt a ++ inlinedAt b := List.flatMap_append

theorem inlinedAt_values (name : String) (members : List (String × Value)) :
    inlinedAt (members.map fun m => (.option name m.1, itemsOf m.2)) =
      members.flatMap fun m => inlinedFrom (name ++ "-" ++ m.1) 0 (itemsOf m.2) := by
  unfold inlinedAt
  rw [List.flatMap_map]
  rfl

variable {d : Draft} {front madeUp place name : String} {v : Value}

theorem inlinedFrom_cons (front : String) (index : Nat) (v : Value) (items : List Value) :
    inlinedFrom front index (v :: items) =
      ((inlineTokens? v).map (madeUpPath front index, ·)).toList ++
        inlinedFrom front (index + 1) items := by
  unfold inlinedFrom
  rw [List.zipIdx_cons, List.filterMap_cons]
  cases inlineTokens? v with
  | none => rfl
  | some tokens => rfl

/-! ### What is collected -/

theorem fault_ne_nil (d : Draft) (place : String) (complaint : Complaint) :
    (d.fault place complaint).faults ≠ [] :=
  List.append_ne_nil_of_right_ne_nil _ (List.cons_ne_nil _ _)

theorem faults_eq_nil_of_extends {e : Draft} {ns : List Int} (h : Draft.Extends ns d e)
    (he : e.faults = []) : d.faults = [] := by
  by_contra hd
  exact h.faults_ne_nil hd he

theorem inline_warn (d : Draft) (warnings : List SetWarning) :
    (warnings.foldl Draft.warn d).inline = d.inline := by
  induction warnings generalizing d with
  | nil => rfl
  | cons warning warnings ih => exact ih (d.warn warning)

theorem setFiles_eq (h : (setFiles d madeUp place v).1.faults = []) :
    (setFiles d madeUp place v).1.inline = Merge.overlay d.inline
        ((inlineTokens? v).map (madeUp ++ inlineSuffix, ·)).toList ∧
      (setFiles d madeUp place v).2 = [fileOf (madeUp ++ inlineSuffix) v] := by
  cases v with
  | object members =>
    unfold setFiles at h ⊢
    dsimp only at h ⊢
    split at h
    · exact absurd h (fault_ne_nil _ _ _)
    · rename_i hsource
      rw [if_neg hsource]
      split at h
      · exact absurd h (fault_ne_nil _ _ _)
      · rename_i htokens
        rw [if_neg htokens]
        change (readSet d madeUp place members (source? members)
          (Upft.present (Table.get? members "tokens"))).1.faults = [] at h
        show (readSet d madeUp place members (source? members)
            (Upft.present (Table.get? members "tokens"))).1.inline = _ ∧
          (readSet d madeUp place members (source? members)
            (Upft.present (Table.get? members "tokens"))).2 = _
        unfold inlineTokens? fileOf readSet at *
        dsimp only at *
        cases hs : source? members with
        | some file =>
          rw [hs] at h
          exact ⟨inline_warn _ _, rfl⟩
        | none =>
          cases ht : Upft.present (Table.get? members "tokens") with
          | some tokens => exact ⟨congrArg (fun t => Table.put t _ _) (inline_warn _ _), rfl⟩
          | none =>
            rw [hs, ht] at h
            exact absurd h (fault_ne_nil _ _ _)
  | _ => exact absurd h (fault_ne_nil _ _ _)

theorem itemFiles_eq {index : Nat} {items : List Value}
    (h : (itemFiles d front place index items).1.faults = []) :
    (itemFiles d front place index items).1.inline =
        Merge.overlay d.inline (inlinedFrom front index items) ∧
      (itemFiles d front place index items).2 = filesFrom front index items := by
  induction items generalizing d index with
  | nil => exact ⟨rfl, rfl⟩
  | cons v items ih =>
    obtain ⟨hinline, hfiles⟩ :=
      setFiles_eq (faults_eq_nil_of_extends (extends_itemFiles _ _ _ _ _) h)
    obtain ⟨hinlines, hothers⟩ := ih h
    refine ⟨?_, congrArg₂ (· ++ ·) hfiles hothers⟩
    rw [inlinedFrom_cons, Merge.overlay_append]
    exact hinlines.trans (congrArg (Merge.overlay · _) hinline)

theorem listFiles_eq (h : (listFiles d front place v).1.faults = []) :
    (listFiles d front place v).1.inline =
        Merge.overlay d.inline (inlinedFrom front 0 (itemsOf v)) ∧
      (listFiles d front place v).2 = filesFrom front 0 (itemsOf v) := by
  cases v with
  | list items => exact itemFiles_eq h
  | _ => exact absurd h (fault_ne_nil _ _ _)

theorem addSets_eq {index : Nat} {items : List Value}
    (h : (addSets d index items).1.faults = []) :
    (addSets d index items).1.inline = Merge.overlay d.inline (inlinedFrom "set" index items) ∧
      (addSets d index items).2.flatMap TokenSet.files = filesFrom "set" index items := by
  induction items generalizing d index with
  | nil => exact ⟨rfl, rfl⟩
  | cons v items ih =>
    obtain ⟨hinline, hfiles⟩ := setFiles_eq (faults_eq_nil_of_extends (extends_addSets _ _ _) h)
    obtain ⟨hinlines, hothers⟩ := ih h
    refine ⟨?_, congrArg₂ (· ++ ·) hfiles hothers⟩
    rw [inlinedFrom_cons, Merge.overlay_append]
    exact hinlines.trans (congrArg (Merge.overlay · _) hinline)

theorem valueFiles_eq {values : List String} {members : List (String × Value)}
    (h : (valueFiles d name place values members).1.faults = []) :
    (valueFiles d name place values members).1.inline = Merge.overlay d.inline
        (members.flatMap fun m => inlinedFrom (name ++ "-" ++ m.1) 0 (itemsOf m.2)) ∧
      (valueFiles d name place values members).2 =
        members.map fun m => (m.1, filesFrom (name ++ "-" ++ m.1) 0 (itemsOf m.2)) := by
  induction members generalizing d with
  | nil => exact ⟨rfl, rfl⟩
  | cons m members ih =>
    obtain ⟨value, sets⟩ := m
    unfold valueFiles at h ⊢
    split at h
    · rename_i hvalue
      rw [if_pos hvalue]
      obtain ⟨hinline, hfiles⟩ :=
        listFiles_eq (faults_eq_nil_of_extends (extends_valueFiles _ _ _ _ _) h)
      obtain ⟨hinlines, hothers⟩ := ih h
      refine ⟨?_, congrArg₂ (fun a b => (value, a) :: b) hfiles hothers⟩
      rw [List.flatMap_cons, Merge.overlay_append]
      exact hinlines.trans (congrArg (Merge.overlay · _) hinline)
    · have hgrown := faults_eq_nil_of_extends (extends_valueFiles _ _ _ _ _) h
      exact absurd hgrown (fault_ne_nil _ _ _)

/-! ### Modifiers -/

/-- What a modifier has for each of its places. -/
def ListsFiles (name : String) (m : Modifier) (places : List (Place × List Value)) : Prop :=
  ∀ p ∈ places, ∃ value, p.1 = .option name value ∧ m.filesOf value = filesFrom p.1.front 0 p.2

/-- A modifier has for each of its values the files of the sets that are listed for it. -/
theorem listsFiles_values {values : List String} {files : Table String (List String)}
    {members : List (String × Value)}
    (hfiles : files = members.map fun m => (m.1, filesFrom (name ++ "-" ++ m.1) 0 (itemsOf m.2)))
    (hkeys : (members.map Prod.fst).Nodup) :
    ListsFiles name (.oneOf values files none)
      (members.map fun m => (.option name m.1, itemsOf m.2)) := by
  intro p hp
  obtain ⟨m, hm, rfl⟩ := List.mem_map.mp hp
  refine ⟨m.1, rfl, ?_⟩
  have hmember : (m.1, filesFrom (name ++ "-" ++ m.1) 0 (itemsOf m.2)) ∈ files := by
    rw [hfiles]
    exact List.mem_map.mpr ⟨m, hm, rfl⟩
  have hnodup : files.keys.Nodup := by
    rw [hfiles]
    show (List.map Prod.fst (List.map _ members)).Nodup
    rw [List.map_map]
    exact hkeys
  exact congrArg (Option.getD · []) (Table.get?_of_mem hnodup hmember)

section

variable {raw : Table String Value}

/-- A member that is an object, or none if it is left out, has every key once. -/
theorem nodup_keys_of_getD {key : String} {members : List (String × Value)}
    (hraw : (Value.object raw).KeysDistinct)
    (h : (raw.get? key).getD (.object []) = .object members) : (members.map Prod.fst).Nodup := by
  cases hget : raw.get? key with
  | none =>
    rw [hget] at h
    cases h
    exact List.nodup_nil
  | some v =>
    rw [hget] at h
    obtain rfl : v = .object members := h
    have hv := (Value.everyObject_object.mp hraw).2 _ (Table.mem_of_get? hget)
    exact (Value.everyObject_object.mp hv).1

theorem enumerated_eq (htype : (raw.get? "type").bind Value.text? = some "enumerated")
    (h : (enumerated d name place raw).1.faults = []) :
    (enumerated d name place raw).1.inline =
        Merge.overlay d.inline (inlinedAt (modifierSections name raw)) ∧
      ∃ m, (enumerated d name place raw).2 = some m ∧
        ((Value.object raw).KeysDistinct → ListsFiles name m (modifierSections name raw)) := by
  have hsections : modifierSections name raw =
      (((raw.get? "sets").getD (.object [])).members?.getD []).map fun m =>
        (.option name m.1, itemsOf m.2) := by
    unfold modifierSections
    rw [htype]
    rfl
  rw [hsections]
  unfold enumerated at h ⊢
  split at h
  · exact absurd h (fault_ne_nil _ _ _)
  · exact absurd h (fault_ne_nil _ _ _)
  · rename_i values hne hvalues
    split at h
    · rename_i members hsets
      obtain ⟨hinline, hfiles⟩ := valueFiles_eq h
      rw [hsets]
      refine ⟨?_, _, rfl, fun hraw => ?_⟩
      · rw [hinline, ← inlinedAt_values]
        rfl
      · exact listsFiles_values hfiles (nodup_keys_of_getD hraw hsets)
    · exact absurd h (fault_ne_nil _ _ _)

theorem optional_eq (htype : (raw.get? "type").bind Value.text? = some "include")
    (h : (optional d name place raw).1.faults = []) :
    (optional d name place raw).1.inline =
        Merge.overlay d.inline (inlinedAt (modifierSections name raw)) ∧
      ∃ m, (optional d name place raw).2 = some m ∧
        ListsFiles name m (modifierSections name raw) := by
  have hsections : modifierSections name raw =
      [(.option name includeOption, itemsOf ((raw.get? "include").getD (.list [])))] := by
    unfold modifierSections
    rw [htype]
    rfl
  obtain ⟨hinline, hfiles⟩ := listFiles_eq h
  rw [hsections]
  refine ⟨?_, _, rfl, ?_⟩
  · refine hinline.trans (congrArg (Merge.overlay _) ?_)
    exact (List.append_nil _).symm
  · intro p hp
    obtain rfl := List.mem_singleton.mp hp
    exact ⟨includeOption, rfl, hfiles⟩

theorem namedModifier_eq (h : (namedModifier d name place raw).1.faults = []) :
    (namedModifier d name place raw).1.inline =
        Merge.overlay d.inline (inlinedAt (modifierSections name raw)) ∧
      ∃ m, (namedModifier d name place raw).2 = some m ∧
        ((Value.object raw).KeysDistinct → ListsFiles name m (modifierSections name raw)) := by
  unfold namedModifier at h ⊢
  split at h
  · rename_i htype
    exact enumerated_eq htype h
  · rename_i htype
    obtain ⟨hinline, m, hm, hfiles⟩ := optional_eq htype h
    exact ⟨hinline, m, hm, fun _ => hfiles⟩
  · exact absurd h (fault_ne_nil _ _ _)

end

section

variable {known : Table String Modifier}

theorem addModifier_eq (h : (addModifier d known place v).1.faults = []) :
    (addModifier d known place v).1.inline =
        Merge.overlay d.inline (inlinedAt (sectionsOf v)) ∧
      ∃ name m, known.get? name = none ∧ (addModifier d known place v).2 = known.put name m ∧
        (v.KeysDistinct → ListsFiles name m (sectionsOf v)) := by
  cases v with
  | object members =>
    unfold addModifier at h ⊢
    dsimp only at h ⊢
    split at h
    · exact absurd h (fault_ne_nil _ _ _)
    · rename_i name hname
      split at h
      · exact absurd h (fault_ne_nil _ _ _)
      · rename_i hnew
        rw [if_neg hnew]
        have htext : (Table.get? members "name").bind Value.text? = some name :=
          (Option.filter_eq_some_iff.mp hname).1
        have hsections : sectionsOf (.object members) = modifierSections name members := by
          show modifierSections (((Table.get? members "name").bind Value.text?).getD "") members = _
          rw [htext]
          rfl
        cases hnamed : namedModifier d name place members with
        | mk e added =>
          rw [hnamed] at h
          have hgrown : (namedModifier d name place members).1.faults = [] := by
            rw [hnamed]
            cases added with
            | none => exact h
            | some m => exact h
          obtain ⟨hinline, m, hm, hfiles⟩ := namedModifier_eq hgrown
          rw [hnamed] at hinline hm
          obtain rfl : added = some m := hm
          rw [hsections]
          exact ⟨hinline, name, m, by simpa [Table.has] using hnew, rfl, hfiles⟩
  | _ => exact absurd h (fault_ne_nil _ _ _)

/-- Whether some modifiers have the files of a place that belongs to one of them. -/
def Listed (known : Table String Modifier) (p : Place × List Value) : Prop :=
  ∃ name value m, p.1 = .option name value ∧ known.get? name = some m ∧
    m.filesOf value = filesFrom p.1.front 0 p.2

theorem addModifiers_eq {index : Nat} {items : List Value}
    (h : (addModifiers d known index items).1.faults = []) :
    (addModifiers d known index items).1.inline =
        Merge.overlay d.inline (inlinedAt (items.flatMap sectionsOf)) ∧
      (∀ name m, known.get? name = some m →
        (addModifiers d known index items).2.get? name = some m) ∧
      ((∀ v ∈ items, v.KeysDistinct) → ∀ p ∈ items.flatMap sectionsOf,
        Listed (addModifiers d known index items).2 p) := by
  induction items generalizing d known index with
  | nil => exact ⟨rfl, fun _ _ => id, fun _ _ hp => absurd hp List.not_mem_nil⟩
  | cons v items ih =>
    obtain ⟨hinline, name, m, hnew, hput, hfiles⟩ :=
      addModifier_eq (faults_eq_nil_of_extends (extends_addModifiers _ _ _ _) h)
    obtain ⟨hinlines, hknown, hlisted⟩ := ih h
    have hadded : (addModifiers d known index (v :: items)).2.get? name = some m :=
      hknown name m (hput ▸ Table.get?_put_self known name m)
    refine ⟨?_, fun other n hother => hknown other n ?_, fun hkeys p hp => ?_⟩
    · rw [List.flatMap_cons, inlinedAt_append, Merge.overlay_append]
      exact hinlines.trans (congrArg (Merge.overlay · _) hinline)
    · have hne : other ≠ name := by
        rintro rfl
        rw [hnew] at hother
        cases hother
      rw [← hother, ← Table.get?_put_of_ne known m hne]
      exact congrArg (Table.get? · other) hput
    · obtain ⟨hv, hitems⟩ := List.forall_mem_cons.mp hkeys
      rw [List.flatMap_cons] at hp
      rcases List.mem_append.mp hp with hp | hp
      · obtain ⟨value, hplace, hvalue⟩ := hfiles hv p hp
        exact ⟨name, value, m, hplace, hadded, hvalue⟩
      · exact hlisted hitems p hp

end

/-! ### What is read -/

section

variable {data : Table String Value} {source : Option String} {read : ParsedManifest}

theorem inline_versionDraft (data : Table String Value) : (versionDraft data).inline = [] := by
  unfold versionDraft
  split
  · rfl
  · rfl

theorem declaredSets_eq (h : (declaredSets d data).1.faults = []) :
    (declaredSets d data).1.inline =
        Merge.overlay d.inline (inlinedFrom "set" 0 (statedSets data)) ∧
      (declaredSets d data).2.flatMap TokenSet.files = filesFrom "set" 0 (statedSets data) := by
  unfold declaredSets statedSets at *
  split at h
  · rename_i first others hsets
    rw [hsets]
    exact addSets_eq h
  · exact absurd h (fault_ne_nil _ _ _)

theorem keysDistinct_of_mem_statedModifiers (hkeys : (Value.object data).KeysDistinct)
    (hv : v ∈ statedModifiers data) : v.KeysDistinct := by
  unfold statedModifiers at hv
  cases hstated : Value.firstStated [data.get? "modifiers"] with
  | none =>
    rw [hstated] at hv
    exact absurd hv List.not_mem_nil
  | some stated =>
    rw [hstated] at hv
    have hget := List.mem_singleton.mp (Value.firstStated_cases hstated).1
    have hdistinct : stated.KeysDistinct := hkeys.member hget.symm
    cases stated with
    | list items => exact Value.everyObject_list.mp hdistinct v hv
    | _ => exact absurd hv List.not_mem_nil

theorem declaredModifiers_eq (hkeys : (Value.object data).KeysDistinct)
    (h : (declaredModifiers d data).1.faults = []) :
    (declaredModifiers d data).1.inline =
        Merge.overlay d.inline (inlinedAt ((statedModifiers data).flatMap sectionsOf)) ∧
      ∀ p ∈ (statedModifiers data).flatMap sectionsOf, Listed (declaredModifiers d data).2 p := by
  have hstated : ∀ v ∈ statedModifiers data, v.KeysDistinct := fun v =>
    keysDistinct_of_mem_statedModifiers hkeys
  unfold declaredModifiers at h ⊢
  unfold statedModifiers at hstated ⊢
  split at h
  · rename_i hnone
    rw [hnone]
    exact ⟨rfl, fun p hp => absurd hp List.not_mem_nil⟩
  · rename_i items hitems
    rw [hitems] at hstated ⊢
    obtain ⟨hinline, -, hlisted⟩ := addModifiers_eq h
    exact ⟨hinline, hlisted hstated⟩
  · exact absurd h (fault_ne_nil _ _ _)

/-- **What is collected from a manifest**: the tokens at its places, in their order, and the files
of each place. -/
theorem parse_inline (hkeys : (Value.object data).KeysDistinct)
    (h : parse data source = .ok read) :
    read.manifest.inline = Table.ofPairs (inlinedAt (sections data)) ∧
      ∀ p ∈ sections data, filesAt read.manifest p.1 = filesFrom p.1.front 0 p.2 := by
  have h := of_parse h
  unfold conclude at h
  split at h
  · rename_i hfaults
    obtain ⟨version, -, hread⟩ := Value.bind_eq_ok.mp h
    obtain ⟨m, hm, rfl⟩ := Value.map_eq_ok.mp hread
    obtain ⟨name, description, stated, rfl⟩ := Manifest.eq_of_withDescription hm
    obtain ⟨hlater, hlisted⟩ := declaredModifiers_eq hkeys (List.isEmpty_iff.mp hfaults)
    obtain ⟨hbefore, hfiles⟩ := declaredSets_eq
      (faults_eq_nil_of_extends (extends_declaredModifiers _ _) (List.isEmpty_iff.mp hfaults))
    refine ⟨?_, fun p hp => ?_⟩
    · show (declaredModifiers (declaredSets (versionDraft data) data).1 data).1.inline = _
      rw [hlater, hbefore, ← Merge.overlay_append, inline_versionDraft]
      rfl
    · rcases List.mem_cons.mp hp with rfl | hp
      · exact hfiles
      · obtain ⟨name, value, m, hplace, hget, hvalue⟩ := hlisted p hp
        rw [← hvalue, hplace]
        exact congrArg (fun m => (m.map fun x => x.filesOf value).getD []) hget
  · cases h

end

end DesignTokens.DtcgResolver

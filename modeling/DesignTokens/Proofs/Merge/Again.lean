import DesignTokens.Proofs.Merge.Respelled

/-!
# Merging an entry again

An entry that is merged over itself gives itself back, and one that was just merged over
another changes nothing when it is merged again, apart from the keys of groups: a group
that was taken over whole has its own keys at first, and texts for keys once it was merged
again.

This comes down to facts about each kind of member: laying a member over what it became
gives what it became (`deep_deep`, `values_again`), and for the entries of groups
`MergedAgain` says how they change (`child_again`).  The types that are handed down in the
second merge come from the merged groups; a merged group stands for the type that its pair
stood for (`pairType_laid`).
-/

namespace DesignTokens

namespace Merge

variable {κ α ε : Type} [DecidableEq κ] {f : κ → α → Except ε α} {t : Table κ α}

/-- A table laid over itself is changed value by value. -/
theorem overlayWith_self (g : κ → α → α) (hkeys : t.keys.Nodup)
    (h : ∀ key v, t.get? key = some v → f key v = .ok (g key v)) :
    overlayWith f t t = .ok (t.map fun m => (m.1, g m.1 m.2)) := by
  obtain ⟨u, hu⟩ : ∃ u, overlayWith f t t = .ok u :=
    exists_overlayWith t fun m hm => ⟨_, h m.1 m.2 (Table.get?_of_mem hkeys hm)⟩
  have hlaid := laid_of_overlayWith hkeys hu
  have hsame : u.keys = t.keys := by
    rw [hlaid.keys, List.filter_eq_nil_iff.mpr (by simp), List.append_nil]
  rw [hu]
  refine congrArg Except.ok (Table.ext_get? (hsame.trans (Table.keys_map g).symm)
    (hsame ▸ hkeys) fun key _ => ?_)
  rw [Table.get?_map]
  cases hget : t.get? key with
  | none => exact (hlaid.rest key hget).trans hget
  | some v =>
    obtain ⟨w, hw, hgetu⟩ := hlaid.member key v hget
    rw [hgetu, ← Except.ok.inj ((h key v hget).symm.trans hw)]
    rfl

variable {g : κ → α → Except ε α} {old members members' t' u : Table κ α}

theorem Laid.keys_again (h : Laid f old members t) (h' : Laid g t members t') :
    t'.keys = t.keys := by
  rw [h'.keys, List.filter_eq_nil_iff.mpr, List.append_nil]
  intro key hk
  have hmem : key ∈ t.keys := by
    rw [← Table.has_iff_mem_keys, h.has_eq, (Table.has_iff_mem_keys members key).mpr hk,
      Bool.or_true]
  simpa using hmem

/-- Laying members over a table a second time gives what other members give at once, if each of
them becomes the same. -/
theorem Laid.eq_again (hold : old.keys.Nodup) (hmembers : Table.keys members' |>.Nodup)
    (h : Laid f old members t) (h' : Laid g t members t') (hu : Laid f old members' u)
    (hkeys : Table.keys members' = members.keys)
    (hsame : ∀ key v v', members.get? key = some v → Table.get? members' key = some v' →
      ∃ y, g key v = .ok y ∧ f key v' = .ok y) : u = t' := by
  have hkeysu : u.keys = t'.keys := by rw [h.keys_again h', hu.keys, h.keys, hkeys]
  refine Table.ext_get? hkeysu (hu.nodup hold hmembers) fun key _ => ?_
  cases hv : members.get? key with
  | none =>
    have hnone : Table.get? members' key = none := by
      rwa [Table.get?_eq_none_iff, hkeys, ← Table.get?_eq_none_iff]
    rw [hu.rest key hnone, h'.rest key hv, h.rest key hv]
  | some v =>
    have hmem : key ∈ Table.keys members' := by
      rw [hkeys, ← Table.has_iff_mem_keys, Table.has, hv]
      rfl
    obtain ⟨v', hv'⟩ := Table.exists_get?_of_mem_keys hmem
    obtain ⟨y, hy, hfy⟩ := hsame key v v' hv hv'
    obtain ⟨w, hw, ht'⟩ := h'.member key v hv
    obtain ⟨x, hx, hgetu⟩ := hu.member key v' hv'
    rw [ht', hgetu, ← Except.ok.inj (hy.symm.trans hw), ← Except.ok.inj (hfy.symm.trans hx)]

end Merge

namespace Keyed

open Merge (overlay overlayWith Laid)

/-- A type, if there is one, is a text. -/
def IsTextual (type : Option Keyed) : Prop := ∀ t, type = some t → ∃ s, t = .scalar (.text s)

/-- An entry in which no object has a key twice and all types are texts. -/
structure IsEntry (v : Keyed) : Prop where
  keys : v.keysDistinct = true
  types : ∀ t ∈ v.entryTypes, ∃ s, t = .scalar (.text s)

/-- The members of a group of such entries. -/
structure AreGroup (members : List (Key × Keyed)) : Prop where
  nodup : (Table.keys members).Nodup
  keys : ∀ key v, (textKeys members).get? key = some v → v.keysDistinct = true
  type : IsTextual ((textKeys members).get? typeKey)
  entry : ∀ key v, (textKeys members).get? key = some v → Conflict.isOwnKey key = false →
    v.IsEntry

variable {first members : List (Key × Keyed)} {inherited type : Option Keyed} {key : String}
  {u v w : Keyed}

/-! ### Types and entries -/

theorem isTextual_none : IsTextual none := fun _ h => nomatch h

theorem areGroup_of_types (hkeys : (Keyed.object members).keysDistinct = true)
    (htype : IsTextual (Table.get? members (.text typeKey)))
    (hbelow : ∀ t ∈ entryTypesBelow members, ∃ s, t = .scalar (.text s)) : AreGroup members where
  nodup := (keysDistinct_object.mp hkeys).1
  keys key v hv := keysDistinct_entry hkeys hv
  type := by rwa [get?_textKeys_own (keysDistinct_object.mp hkeys).1 Merge.isOwnKey_typeKey]
  entry key v hv hown :=
    ⟨keysDistinct_entry hkeys hv, fun t ht => hbelow t (mem_entryTypesBelow_of_entry hown hv ht)⟩

theorem AreGroup.rootType (h : AreGroup members) :
    IsTextual (Table.get? members (.text typeKey)) := by
  rw [← get?_textKeys_own h.nodup Merge.isOwnKey_typeKey]
  exact h.type

theorem IsEntry.textType (h : (Keyed.object members).IsEntry) :
    IsTextual (Table.get? members (.text typeKey)) := by
  intro t ht
  refine h.types t ?_
  rw [entryTypes, ht]
  exact List.mem_append_left _ List.mem_cons_self

theorem IsEntry.areGroup (h : (Keyed.object members).IsEntry)
    (hgroup : Table.has members (.text valueKey) = false) : AreGroup members := by
  refine areGroup_of_types h.keys h.textType fun t ht => h.types t ?_
  rw [entryTypes, hgroup]
  exact List.mem_append_right _ ht

theorem IsDocument.areGroup (h : (Keyed.object members).IsDocument)
    (htypes : ∀ t ∈ (Keyed.object members).statedTypes, ∃ s, t = .scalar (.text s)) :
    AreGroup members := by
  refine areGroup_of_types h.keys (fun t ht => htypes t ?_)
    fun t ht => htypes t (List.mem_append_right _ ht)
  refine List.mem_append_left _ ?_
  rw [typeOf, ht]
  exact List.mem_cons_self

theorem firstStated_cases {types : List (Option Keyed)} (h : firstStated types = some w) :
    some w ∈ types ∧ w.isVacant = false := by
  obtain ⟨v, hm, he⟩ := List.exists_of_findSome?_eq_some h
  obtain ⟨rfl, hstated⟩ := Option.filter_eq_some_iff.mp he
  exact ⟨hm, by simpa using hstated⟩

theorem isTextual_firstStated {types : List (Option Keyed)} (h : ∀ type ∈ types, IsTextual type) :
    IsTextual (firstStated types) := by
  intro t ht
  exact h _ (firstStated_cases ht).1 t rfl

theorem isTextual_pairType {old members : Table String Keyed}
    (hold : IsTextual (old.get? typeKey)) (hmembers : IsTextual (members.get? typeKey))
    (hinherited : IsTextual inherited) : IsTextual (pairType old members inherited) := by
  apply isTextual_firstStated
  intro type hm
  simp only [List.mem_cons, List.not_mem_nil, or_false] at hm
  rcases hm with rfl | rfl | rfl
  · exact hmembers
  · exact hold
  · exact hinherited

theorem isTypeName_of_isTextual (h : IsTextual type) : isTypeName type = true := by
  cases type with
  | none => rfl
  | some t =>
    obtain ⟨s, rfl⟩ := h t rfl
    rfl

theorem same_text (s : String) : (Keyed.scalar (.text s)).same (.scalar (.text s)) = true := by
  rw [same, Scalar.value, Value.same]
  exact beq_self_eq_true s

/-! ### Members of tokens and of groups themselves -/

theorem deep_self (hv : v.keysDistinct = true) : deep v v = v := by
  induction v using inductionOn with
  | object members ih =>
    obtain ⟨hkeys, hbelow⟩ := keysDistinct_object.mp hv
    rw [deep_objects, deepMembers_eq, Merge.overlay_eq_self]
    intro n hn
    obtain ⟨m, hm, rfl⟩ := List.mem_map.mp hn
    have hget := Table.get?_of_mem hkeys hm
    rw [deepMember_some hget, ih m hm (hbelow m hm)]
    exact hget
  | _ => rw [deep]; intro _ h; cases h

/-- Merging a value again at every depth changes nothing. -/
theorem deep_deep (hw : w.keysDistinct = true) (v : Keyed) : deep (deep v w) w = deep v w := by
  induction w using inductionOn generalizing v with
  | object members ih =>
    obtain ⟨hkeys, hbelow⟩ := keysDistinct_object.mp hw
    rcases deep_cases v (.object members) with ⟨old, _, rfl, he⟩ | hreplaced
    · cases he
      have hget : ∀ m ∈ members, Table.get? (deepMembers old old members) m.1 =
          some (deepMember old m.1 m.2) := by
        intro m hm
        rw [deepMembers_eq, Merge.get?_overlay (by rwa [Table.keys_map]), Table.get?_map,
          Table.get?_of_mem hkeys hm]
        rfl
      rw [deep_objects, deep_objects, deepMembers_eq, Merge.overlay_eq_self]
      intro n hn
      obtain ⟨m, hm, rfl⟩ := List.mem_map.mp hn
      rw [deepMember_some (hget m hm), hget m hm]
      cases hold : Table.get? old m.1 with
      | none => rw [deepMember_none hold, deep_self (hbelow m hm)]
      | some x => rw [deepMember_some hold, ih m hm (hbelow m hm)]
    · rw [hreplaced, deep_self hw]
  | scalar s =>
    rcases deep_cases v (.scalar s) with ⟨_, _, -, he⟩ | hreplaced
    · cases he
    · rw [hreplaced, deep_self hw]
  | list items =>
    rcases deep_cases v (.list items) with ⟨_, _, -, he⟩ | hreplaced
    · cases he
    · rw [hreplaced, deep_self hw]

theorem values_self (htype : isTypeName type = true) (hv : v.keysDistinct = true) :
    values type v v = .ok v := by
  rcases values_cases type v v with ⟨members, _, rfl, -⟩ | hreplaced
  · rw [values_objects htype, Merge.overlay_eq_self]
    exact fun m hm => Table.get?_of_mem (keysDistinct_object.mp hv).1 hm
  · exact hreplaced

/-- Merging a value of a token again changes nothing. -/
theorem values_again {type' : Option Keyed} (htype : isTypeName type' = true)
    (hw : w.keysDistinct = true) (h : values type v w = .ok u) : values type' u w = .ok u := by
  rcases values_cases type v w with ⟨old, members, rfl, rfl⟩ | hreplaced
  · rw [values] at h
    split at h
    · cases Except.ok.inj h
      have hkeys := (keysDistinct_object.mp hw).1
      rw [values_objects htype, Merge.overlay_eq_self]
      intro m hm
      rw [Merge.get?_overlay hkeys, Table.get?_of_mem hkeys hm]
      rfl
    · cases h
  · obtain rfl : w = u := Except.ok.inj (hreplaced.symm.trans h)
    exact values_self htype hw

theorem ownMember_self {t : Table String Keyed} (hv : t.get? key = some v)
    (hdistinct : v.keysDistinct = true) : ownMember t key v = v := by
  rw [ownMember, hv]
  split
  · split <;> rfl
  · exact deep_self hdistinct

/-- Merging a member of a group itself again changes nothing. -/
theorem ownMember_again {old t : Table String Keyed} (hv : v.keysDistinct = true)
    (ht : t.get? key = some (ownMember old key v)) :
    ownMember t key v = ownMember old key v := by
  rw [ownMember, ht]
  split
  · rename_i hkey
    rw [ownMember, if_pos hkey]
    split <;> rfl
  · rename_i hkey
    rw [ownMember, if_neg hkey]
    cases old.get? key with
    | none => exact deep_self hv
    | some x => exact deep_deep hv x

/-! ### Tokens -/

section Tokens

variable {old members t : Table Key Keyed} {key : Key}

theorem isTextual_tokenType (hold : IsTextual (old.get? (.text typeKey)))
    (hmembers : IsTextual (members.get? (.text typeKey))) (hinherited : IsTextual inherited) :
    IsTextual (tokenType old members inherited) := by
  apply isTextual_firstStated
  intro type hm
  simp only [List.mem_cons, List.not_mem_nil, or_false] at hm
  rcases hm with rfl | rfl | rfl
  · exact hmembers
  · exact hold
  · exact hinherited

theorem tokenMember_self (htype : isTypeName type = true) (hv : members.get? key = some v)
    (hdistinct : v.keysDistinct = true) : tokenMember type members key v = .ok v := by
  rw [tokenMember, hv]
  split
  · exact values_self htype hdistinct
  · split
    · exact congrArg _ (deep_self hdistinct)
    · rfl

theorem tokenMember_again {type' : Option Keyed} (htype : isTypeName type' = true)
    (hv : v.keysDistinct = true) (h : tokenMember type old key v = .ok w)
    (ht : t.get? key = some w) : tokenMember type' t key v = .ok w := by
  rw [tokenMember] at h ⊢
  rw [ht]
  split at h
  · rename_i hkey
    rw [if_pos hkey]
    exact values_again htype hv h
  · rename_i hkey
    rw [if_neg hkey, ← Except.ok.inj h]
    split
    · exact congrArg _ (deep_deep hv _)
    · rfl

theorem tokens_self (hkeys : (Keyed.object members).keysDistinct = true)
    (htype : IsTextual (members.get? (.text typeKey))) (hinherited : IsTextual inherited) :
    tokens inherited members members = .ok (.object members) := by
  obtain ⟨hnodup, hbelow⟩ := keysDistinct_object.mp hkeys
  refine tokens_eq_ok_iff.mpr ⟨members, Merge.overlayWith_eq_self fun m hm => ?_, rfl⟩
  have hget := Table.get?_of_mem hnodup hm
  refine ⟨m.2, hget, tokenMember_self ?_ hget (hbelow m hm)⟩
  exact isTypeName_of_isTextual (isTextual_tokenType htype htype hinherited)

theorem get?_type_of_laid_token (h : Laid (tokenMember type old) old members t) :
    t.get? (.text typeKey) = (members.get? (.text typeKey)).or (old.get? (.text typeKey)) := by
  cases hmember : members.get? (.text typeKey) with
  | none => exact h.rest _ hmember
  | some v =>
    obtain ⟨w, hw, ht⟩ := h.member _ v hmember
    rw [tokenMember, if_neg (by decide), if_neg (by decide)] at hw
    rw [ht, ← Except.ok.inj hw]
    rfl

theorem tokens_again (hmembers : (Keyed.object members).keysDistinct = true)
    (holdType : IsTextual (old.get? (.text typeKey)))
    (htype : IsTextual (members.get? (.text typeKey))) (hinherited : IsTextual inherited)
    (h : Laid (tokenMember type old) old members t) :
    tokens inherited t members = .ok (.object t) := by
  have htextual : IsTextual (t.get? (.text typeKey)) := by
    rw [get?_type_of_laid_token h]
    intro type hm
    rcases Option.or_eq_some_iff.mp hm with hmember | ⟨-, hold⟩
    · exact htype type hmember
    · exact holdType type hold
  obtain ⟨hnodup, hbelow⟩ := keysDistinct_object.mp hmembers
  refine tokens_eq_ok_iff.mpr ⟨t, Merge.overlayWith_eq_self fun m hm => ?_, rfl⟩
  obtain ⟨w, hw, ht⟩ := h.member _ _ (Table.get?_of_mem hnodup hm)
  refine ⟨w, ht, tokenMember_again ?_ (hbelow m hm) hw ht⟩
  exact isTypeName_of_isTextual (isTextual_tokenType htextual htype hinherited)

end Tokens

/-! ### Groups -/

/-- What becomes of an entry that is merged again.  `v` was laid over `w` and gave `u`; laid over
`u` it gives `u'`, as it would have done over `w` with texts for the keys of its groups, and `u`
changes in these keys alone. -/
structure MergedAgain (inherited : Option Keyed) (w v u u' : Keyed) : Prop where
  merged : child inherited u v = .ok u'
  respelled : child inherited w v.respelled = .ok u'
  same : u'.respelled = u.respelled

section Groups

variable {old members t : Table String Keyed}

theorem ownMember_type (v : Keyed) :
    ownMember old typeKey v =
      if v.isVacant then (old.get? typeKey).getD (.scalar .null) else v := if_pos rfl

/-- A merged group stands for the type that the pair stood for. -/
theorem pairType_laid (h : Laid (groupMember type old) old members t) (inherited : Option Keyed) :
    pairType t members inherited = pairType old members inherited := by
  unfold pairType firstStated
  cases hmember : members.get? typeKey with
  | none => rw [h.rest _ hmember]
  | some v =>
    obtain ⟨w, hw, ht⟩ := h.member _ v hmember
    rw [groupMember_own Merge.isOwnKey_typeKey, ownMember_type] at hw
    rw [ht, ← Except.ok.inj hw]
    cases hvacant : v.isVacant with
    | false => simp [hvacant]
    | true =>
      have hnull : (Keyed.scalar .null).isVacant = true := rfl
      cases old.get? typeKey with
      | none => simp [hvacant, hnull]
      | some x => simp [hvacant]

/-- What becomes of a member of a group that is merged again. -/
theorem groupMember_again (h : Laid (groupMember type old) old members t)
    (hv : members.get? key = some v) (hdistinct : v.keysDistinct = true)
    (hself : Conflict.isOwnKey key = false → child type v v = .ok v.respelled)
    (hagain : Conflict.isOwnKey key = false → ∀ w u, old.get? key = some w →
      child type w v = .ok u → ∃ u', MergedAgain type w v u u') :
    ∃ x y, t.get? key = some x ∧ groupMember type t key v = .ok y ∧
      groupMember type old key (respelledMember key v) = .ok y ∧
        respelledMember key y = respelledMember key x := by
  obtain ⟨x, hx, ht⟩ := h.member key v hv
  cases hown : Conflict.isOwnKey key with
  | true =>
    rw [groupMember_own hown] at hx
    obtain rfl := Except.ok.inj hx
    refine ⟨_, ownMember old key v, ht, ?_, ?_, rfl⟩
    · rw [groupMember_own hown, ownMember_again hdistinct ht]
    · rw [respelledMember_own hown, groupMember_own hown]
  | false =>
    rw [groupMember_child hown ht, respelledMember_entry hown]
    simp only [respelledMember_entry hown]
    cases hold : old.get? key with
    | none =>
      rw [groupMember_new hown hold] at hx
      obtain rfl := Except.ok.inj hx
      exact ⟨v, v.respelled, ht, hself hown, groupMember_new hown hold, respelled_respelled v⟩
    | some w =>
      rw [groupMember_child hown hold] at hx
      obtain ⟨y, hy⟩ := hagain hown w x hold hx
      exact ⟨x, y, ht, hy.merged, (groupMember_child hown hold).trans hy.respelled, hy.same⟩

end Groups

theorem groups_self (h : AreGroup members)
    (hentries : ∀ key v, (textKeys members).get? key = some v → Conflict.isOwnKey key = false →
      child type v v = .ok v.respelled) :
    overlayWith (groupMember type (textKeys members)) (textKeys members) (textKeys members) =
      .ok (respelledTable (textKeys members)) := by
  refine Merge.overlayWith_self respelledMember (nodup_keys_textKeys members)
    fun key v hget => ?_
  cases hown : Conflict.isOwnKey key with
  | true =>
    rw [groupMember_own hown, ownMember_self hget (h.keys key v hget), respelledMember_own hown]
  | false => rw [groupMember_child hown hget, hentries key v hget hown, respelledMember_entry hown]

/-- A group that is merged again changes in the keys of the groups below it alone, if this is so
for its entries. -/
theorem groups_again {t : Table String Keyed} (hmembers : AreGroup members)
    (h : Laid (groupMember type (textKeys first)) (textKeys first) (textKeys members) t)
    (hself : ∀ key v, (textKeys members).get? key = some v → Conflict.isOwnKey key = false →
      child type v v = .ok v.respelled)
    (hagain : ∀ key v, (textKeys members).get? key = some v → Conflict.isOwnKey key = false →
      ∀ w u, (textKeys first).get? key = some w → child type w v = .ok u →
        ∃ u', MergedAgain type w v u u') :
    ∃ t', overlayWith (groupMember type t) t (textKeys members) = .ok t' ∧
      overlayWith (groupMember type (textKeys first)) (textKeys first)
        (respelledTable (textKeys members)) = .ok t' ∧
      t'.keys = t.keys ∧ respelledTable t' = respelledTable t := by
  have hmember := fun key v hv => groupMember_again h hv (hmembers.keys key v hv)
    (hself key v hv) (hagain key v hv)
  have hold := nodup_keys_textKeys first
  have hnew := nodup_keys_textKeys members
  have hkeys : t.keys.Nodup := h.nodup hold hnew
  have hrespelled : (respelledTable (textKeys members)).keys.Nodup := by
    rwa [keys_respelledTable]
  obtain ⟨t', ht'⟩ : ∃ t', overlayWith (groupMember type t) t (textKeys members) = .ok t' := by
    refine Merge.exists_overlayWith t fun m hm => ?_
    obtain ⟨_, y, -, hy, -⟩ := hmember _ _ (Table.get?_of_mem hnew hm)
    exact ⟨y, hy⟩
  obtain ⟨u, hu⟩ : ∃ u, overlayWith (groupMember type (textKeys first)) (textKeys first)
      (respelledTable (textKeys members)) = .ok u := by
    refine Merge.exists_overlayWith _ fun m hm => ?_
    obtain ⟨n, hn, rfl⟩ := List.mem_map.mp hm
    obtain ⟨_, y, -, -, hy, -⟩ := hmember _ _ (Table.get?_of_mem hnew hn)
    exact ⟨y, hy⟩
  have hlaid' := Merge.laid_of_overlayWith hnew ht'
  have hsame := h.keys_again hlaid'
  have hequal : u = t' := by
    refine h.eq_again hold hrespelled hlaid' (Merge.laid_of_overlayWith hrespelled hu)
      (keys_respelledTable _) fun key v v' hv hv' => ?_
    obtain ⟨-, y, -, hy, hyold, -⟩ := hmember key v hv
    rw [get?_respelledTable, hv] at hv'
    exact ⟨y, hy, Option.some.inj hv' ▸ hyold⟩
  refine ⟨t', ht', hequal ▸ hu, hsame, ?_⟩
  refine Table.ext_get? (by rw [keys_respelledTable, keys_respelledTable, hsame])
    (by rwa [keys_respelledTable, hsame]) fun key _ => ?_
  rw [get?_respelledTable, get?_respelledTable]
  cases hv : (textKeys members).get? key with
  | none => rw [hlaid'.rest key hv]
  | some v =>
    obtain ⟨x, y, hx, hy, -, hxy⟩ := hmember key v hv
    obtain ⟨y', hy', hgett⟩ := hlaid'.member key v hv
    rw [hgett, hx, ← Except.ok.inj (hy.symm.trans hy')]
    exact congrArg some hxy

/-! ### Entries -/

theorem child_self (hv : v.IsEntry) (hinherited : IsTextual inherited) :
    child inherited v v = .ok v.respelled := by
  induction v using inductionOn generalizing inherited with
  | object members ih =>
    cases hvalue : Table.has members (.text valueKey) with
    | true =>
      rw [child_of_tokens hvalue hvalue, respelled_token hvalue]
      exact tokens_self hv.keys hv.textType hinherited
    | false =>
      have hgroup := hv.areGroup hvalue
      rw [child_of_groups hvalue hvalue, respelled_group hvalue, groups_self hgroup]
      · rfl
      · intro key v hget hown
        have hentry := hgroup.entry key v hget hown
        obtain ⟨m, hm, -, rfl⟩ := exists_mem_of_get?_textKeys hget
        exact ih m hm hentry (isTextual_pairType hgroup.type hgroup.type hinherited)
  | _ => exact child_of_mixed rfl rfl

theorem mergedAgain_replaced (hv : v.IsEntry) (hinherited : IsTextual inherited)
    (htokens : (w.isToken && v.isToken) = false) (hgroups : (w.isGroup && v.isGroup) = false) :
    MergedAgain inherited w v v v.respelled where
  merged := child_self hv hinherited
  respelled := child_of_mixed (by rwa [isToken_respelled]) (by rwa [isGroup_respelled])
  same := respelled_respelled v

theorem pairType_respelledTable (old members : Table String Keyed) (inherited : Option Keyed) :
    pairType old (respelledTable members) inherited = pairType old members inherited := by
  rw [pairType, get?_respelledTable_own Merge.isOwnKey_typeKey]
  rfl

theorem mergedAgain_tokens (hw : IsEntry (.object first)) (hv : IsEntry (.object members))
    (hinherited : IsTextual inherited) (hfirst : Table.has first (.text valueKey) = true)
    (hvalue : Table.has members (.text valueKey) = true)
    (h : tokens inherited first members = .ok u) :
    MergedAgain inherited (.object first) (.object members) u u := by
  obtain ⟨t, ht, rfl⟩ := tokens_eq_ok_iff.mp h
  have hlaid := Merge.laid_of_overlayWith (keysDistinct_object.mp hv.keys).1 ht
  have htoken : t.has (.text valueKey) = true := by rw [hlaid.has_eq, hfirst, Bool.true_or]
  refine ⟨?_, ?_, rfl⟩
  · rw [child_of_tokens htoken hvalue]
    exact tokens_again hv.keys hw.textType hv.textType hinherited hlaid
  · rw [respelled_token hvalue, child_of_tokens hfirst hvalue, h]

/-- Two groups are merged again if this is so for the entries that both have. -/
theorem mergedAgain_groups {t : Table String Keyed} (hw : IsEntry (.object first))
    (hv : IsEntry (.object members)) (hinherited : IsTextual inherited)
    (hfirst : Table.has first (.text valueKey) = false)
    (hvalue : Table.has members (.text valueKey) = false)
    (h : overlayWith (groupMember (pairType (textKeys first) (textKeys members) inherited)
      (textKeys first)) (textKeys first) (textKeys members) = .ok t)
    (hagain : ∀ key v, (textKeys members).get? key = some v → Conflict.isOwnKey key = false →
      ∀ w u, (textKeys first).get? key = some w →
        child (pairType (textKeys first) (textKeys members) inherited) w v = .ok u →
          ∃ u', MergedAgain (pairType (textKeys first) (textKeys members) inherited) w v u u') :
    ∃ u', MergedAgain inherited (.object first) (.object members) (ofTable t) u' := by
  have hold := hw.areGroup hfirst
  have hnew := hv.areGroup hvalue
  have hlaid := Merge.laid_of_overlayWith (nodup_keys_textKeys members) h
  have hpair := isTextual_pairType hold.type hnew.type hinherited
  obtain ⟨t', ht', hrespelled, hsame, hboth⟩ := groups_again hnew hlaid
    (fun key v hget hown => child_self (hnew.entry key v hget hown) hpair) hagain
  have hkeys : t.keys.Nodup := hlaid.nodup (nodup_keys_textKeys _) (nodup_keys_textKeys _)
  have hgroup : t.has valueKey = false := by
    rw [hlaid.has_eq, has_textKeys_value, has_textKeys_value, hfirst, hvalue, Bool.false_or]
  have hgroup' : t'.has valueKey = false := by
    rw [Bool.eq_false_iff, ne_eq, Table.has_iff_mem_keys, hsame, ← Table.has_iff_mem_keys, hgroup]
    exact Bool.false_ne_true
  refine ⟨ofTable t', ?_, ?_, ?_⟩
  · rw [ofTable, child_of_groups ((has_map_text t).trans hgroup) hvalue, textKeys_map_text hkeys,
      pairType_laid hlaid, ht']
    rfl
  · rw [respelled_group hvalue, ofTable, child_of_groups hfirst, textKeys_map_text,
      pairType_respelledTable, hrespelled]
    · rfl
    · rw [keys_respelledTable]
      exact nodup_keys_textKeys members
    · rw [has_map_text, has_respelledTable_value, has_textKeys_value, hvalue]
  · rw [respelled_ofTable (hsame ▸ hkeys) hgroup', respelled_ofTable hkeys hgroup, hboth]

/-- Merging a child again changes the keys of groups alone. -/
theorem child_again (hw : w.IsEntry) (hv : v.IsEntry) (hinherited : IsTextual inherited)
    (h : child inherited w v = .ok u) : ∃ u', MergedAgain inherited w v u u' := by
  induction v using inductionOn generalizing inherited w u with
  | object members ih =>
    rcases child_cases h with ⟨first, members', rfl, he, hfirst, hvalue, htokens⟩ |
      ⟨first, members', t, rfl, he, hfirst, hvalue, ht, rfl⟩ | ⟨htokens, hgroups, rfl⟩
    · cases he
      exact ⟨u, mergedAgain_tokens hw hv hinherited hfirst hvalue htokens⟩
    · cases he
      have hold := hw.areGroup hfirst
      have hnew := hv.areGroup hvalue
      refine mergedAgain_groups hw hv hinherited hfirst hvalue ht ?_
      intro key v hget hown x u hx hu
      have hentry := hnew.entry key v hget hown
      obtain ⟨m, hm, -, rfl⟩ := exists_mem_of_get?_textKeys hget
      exact ih m hm (hold.entry key x hx hown) hentry
        (isTextual_pairType hold.type hnew.type hinherited) hu
    · exact ⟨_, mergedAgain_replaced hv hinherited htokens hgroups⟩
  | scalar s =>
    rcases child_cases h with ⟨_, _, -, he, -⟩ | ⟨_, _, _, -, he, -⟩ | ⟨htokens, hgroups, rfl⟩
    · cases he
    · cases he
    · exact ⟨_, mergedAgain_replaced hv hinherited htokens hgroups⟩
  | list items =>
    rcases child_cases h with ⟨_, _, -, he, -⟩ | ⟨_, _, _, -, he, -⟩ | ⟨htokens, hgroups, rfl⟩
    · cases he
    · cases he
    · exact ⟨_, mergedAgain_replaced hv hinherited htokens hgroups⟩

end Keyed

end DesignTokens

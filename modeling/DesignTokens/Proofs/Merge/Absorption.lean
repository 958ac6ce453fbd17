import DesignTokens.Proofs.Merge.Again

/-!
# Merging the same document again

A document that is merged over itself gives itself back, and merging a document again right
after itself never conflicts and changes nothing but the keys of groups that the first merge
took over whole: these become texts.  So merging a document `b` again gives what `b` gives if
its groups have texts for keys from the start (`documents_again`).

The types inherited in the second walk come from the merged groups, and they are those of
the first walk.  So every token meets the same type again, and the second walk finds no
conflict (`walk_again`).
-/

namespace DesignTokens

namespace Keyed

open Merge (overlayWith Laid)

variable {first members : List (Key × Keyed)} {inherited type : Option Keyed} {path : String}
  {u v w : Keyed}

/-! ### The second walk -/

theorem ofTokens_eq_nil_iff {a b : Keyed} :
    ofTokens a b path inherited = [] ↔
      ∀ s t, firstStated [typeOf a, inherited] = some s →
        firstStated [typeOf b, inherited] = some t → s.same t = true := by
  unfold ofTokens
  cases firstStated [typeOf a, inherited] with
  | none => simp
  | some s =>
    cases firstStated [typeOf b, inherited] with
    | none => simp
    | some t => simp

/-- Tokens that stand for one type are in no conflict. -/
theorem ofTokens_of_type_eq {a b : Keyed} (h : typeOf a = typeOf b)
    (htype : IsTextual (typeOf b)) (hinherited : IsTextual inherited) :
    ofTokens a b path inherited = [] := by
  rw [ofTokens_eq_nil_iff, h]
  intro s t hs ht
  obtain rfl : s = t := Option.some.inj (hs.symm.trans ht)
  have htextual : IsTextual (firstStated [typeOf b, inherited]) := by
    apply isTextual_firstStated
    intro type hm
    simp only [List.mem_cons, List.not_mem_nil, or_false] at hm
    rcases hm with rfl | rfl
    · exact htype
    · exact hinherited
  obtain ⟨text, rfl⟩ := htextual s hs
  exact same_text text

/-- The walk over two groups finds nothing if it finds nothing at the entries of both. -/
theorem walk_groups_eq_nil_iff (hfirst : Table.has first (.text valueKey) = false)
    (hvalue : Table.has members (.text valueKey) = false) (hkeys : (Table.keys first).Nodup)
    (hnew : (Table.keys members).Nodup) :
    walk (.object members) path inherited (.object first) = [] ↔
      ∀ key v w, (textKeys first).get? key = some w → Conflict.isOwnKey key = false →
        (textKeys members).get? key = some v → walk v (Conflict.joinPath path key)
          (pairType (textKeys first) (textKeys members) inherited) w = [] := by
  have htype : firstStated [typeOf (.object members), typeOf (.object first), inherited] =
      pairType (textKeys first) (textKeys members) inherited := by
    rw [pairType, get?_textKeys_own hkeys Merge.isOwnKey_typeKey,
      get?_textKeys_own hnew Merge.isOwnKey_typeKey]
    rfl
  rw [walk_of_groups hfirst hvalue, htype, List.flatMap_eq_nil_iff]
  constructor
  · intro h key v w hw hown hv
    have hmember := h (key, w) (Table.mem_of_get? hw)
    rwa [walkMember, hown, hv] at hmember
  · intro h m hm
    cases hown : Conflict.isOwnKey m.1 with
    | true => rw [walkMember, if_pos hown]
    | false =>
      rw [walkMember, hown]
      cases hv : (textKeys members).get? m.1 with
      | none => rfl
      | some v => exact h m.1 v m.2 (Table.get?_of_mem (nodup_keys_textKeys first) hm) hown hv

theorem walk_self (hv : v.IsEntry) (hinherited : IsTextual inherited) :
    walk v path inherited v = [] := by
  induction v using inductionOn generalizing inherited path with
  | object members ih =>
    cases hvalue : Table.has members (.text valueKey) with
    | true =>
      rw [walk_of_tokens hvalue hvalue]
      exact ofTokens_of_type_eq rfl hv.textType hinherited
    | false =>
      have hgroup := hv.areGroup hvalue
      rw [walk_groups_eq_nil_iff hvalue hvalue hgroup.nodup hgroup.nodup]
      intro key v w hw hown hv'
      obtain rfl : w = v := Option.some.inj (hw.symm.trans hv')
      have hentry := hgroup.entry key w hw hown
      obtain ⟨m, hm, -, rfl⟩ := exists_mem_of_get?_textKeys hw
      exact ih m hm hentry (isTextual_pairType hgroup.type hgroup.type hinherited)
  | _ => rw [walk]; intro _ h; cases h

theorem walk_ne_nil (h : Table.has first (.text valueKey) ≠ Table.has members (.text valueKey)) :
    walk (.object members) path inherited (.object first) ≠ [] := by
  cases hfirst : Table.has first (.text valueKey) with
  | true =>
    rw [walk_of_token_group hfirst (by simpa [hfirst] using h.symm)]
    exact List.cons_ne_nil _ _
  | false =>
    rw [walk_of_group_token hfirst (by simpa [hfirst] using h.symm)]
    exact List.cons_ne_nil _ _

/-- The second walk over two groups finds nothing, if it is so for the entries. -/
theorem walk_groups_again {t : Table String Keyed} (hold : AreGroup first)
    (hnew : AreGroup members) (hfirst : Table.has first (.text valueKey) = false)
    (hvalue : Table.has members (.text valueKey) = false) (hinherited : IsTextual inherited)
    (hlaid : Laid (groupMember (pairType (textKeys first) (textKeys members) inherited)
      (textKeys first)) (textKeys first) (textKeys members) t)
    (hwalk : walk (.object members) path inherited (.object first) = [])
    (hagain : ∀ key v, (textKeys members).get? key = some v → Conflict.isOwnKey key = false →
      ∀ w u, (textKeys first).get? key = some w →
        child (pairType (textKeys first) (textKeys members) inherited) w v = .ok u → ∀ path,
          walk v path (pairType (textKeys first) (textKeys members) inherited) w = [] →
            walk v path (pairType (textKeys first) (textKeys members) inherited) u = []) :
    walk (.object members) path inherited (ofTable t) = [] := by
  have htkeys : t.keys.Nodup :=
    hlaid.nodup (nodup_keys_textKeys first) (nodup_keys_textKeys members)
  have hgroup : t.has valueKey = false := by
    rw [hlaid.has_eq, has_textKeys_value, has_textKeys_value, hfirst, hvalue, Bool.false_or]
  rw [walk_groups_eq_nil_iff hfirst hvalue hold.nodup hnew.nodup] at hwalk
  rw [ofTable, walk_groups_eq_nil_iff ((has_map_text t).trans hgroup) hvalue
    (nodup_keys_map_text htkeys) hnew.nodup, textKeys_map_text htkeys, pairType_laid hlaid]
  intro key v x hx hown hv
  obtain ⟨y, hy, ht⟩ := hlaid.member key v hv
  obtain rfl : x = y := Option.some.inj (hx.symm.trans ht)
  cases hget : (textKeys first).get? key with
  | none =>
    rw [groupMember_new hown hget] at hy
    rw [← Except.ok.inj hy]
    exact walk_self (hnew.entry key v hv hown) (isTextual_pairType hold.type hnew.type hinherited)
  | some w =>
    rw [groupMember_child hown hget] at hy
    exact hagain key v hv hown w x hget hy _ (hwalk key v w hget hown hv)

/-- The second walk over two tokens finds nothing: where only the older token states a type,
the merged one states the same. -/
theorem ofTokens_again {old members t : Table Key Keyed}
    (h : Laid (tokenMember type old) old members t)
    (htype : IsTextual (members.get? (.text typeKey))) (hinherited : IsTextual inherited)
    (hwalk : ofTokens (.object old) (.object members) path inherited = []) :
    ofTokens (.object t) (.object members) path inherited = [] := by
  have hget := get?_type_of_laid_token h
  cases hmember : members.get? (.text typeKey) with
  | some v =>
    refine ofTokens_of_type_eq ?_ htype hinherited
    change t.get? (.text typeKey) = members.get? (.text typeKey)
    rw [hget, hmember]
    rfl
  | none =>
    have hsame : typeOf (.object t) = typeOf (.object old) := by
      change t.get? (.text typeKey) = old.get? (.text typeKey)
      rw [hget, hmember]
      rfl
    rw [ofTokens_eq_nil_iff] at hwalk ⊢
    rwa [hsame]

theorem walk_again (hw : w.IsEntry) (hv : v.IsEntry) (hinherited : IsTextual inherited)
    (h : child inherited w v = .ok u) (hwalk : walk v path inherited w = []) :
    walk v path inherited u = [] := by
  induction v using inductionOn generalizing inherited w u path with
  | object members ih =>
    rcases child_cases h with ⟨first, members', rfl, he, hfirst, hvalue, htokens⟩ |
      ⟨first, members', t, rfl, he, hfirst, hvalue, ht, rfl⟩ | ⟨-, -, rfl⟩
    · cases he
      obtain ⟨t, ht, rfl⟩ := tokens_eq_ok_iff.mp htokens
      have hlaid := Merge.laid_of_overlayWith (keysDistinct_object.mp hv.keys).1 ht
      have htoken : t.has (.text valueKey) = true := by rw [hlaid.has_eq, hfirst, Bool.true_or]
      rw [walk_of_tokens hfirst hvalue] at hwalk
      rw [walk_of_tokens htoken hvalue]
      exact ofTokens_again hlaid hv.textType hinherited hwalk
    · cases he
      have hold := hw.areGroup hfirst
      have hnew := hv.areGroup hvalue
      refine walk_groups_again hold hnew hfirst hvalue hinherited
        (Merge.laid_of_overlayWith (nodup_keys_textKeys members) ht) hwalk ?_
      intro key v hget hown x u hx hu path hwalk
      have hentry := hnew.entry key v hget hown
      obtain ⟨m, hm, -, rfl⟩ := exists_mem_of_get?_textKeys hget
      exact ih m hm (hold.entry key x hx hown) hentry
        (isTextual_pairType hold.type hnew.type hinherited) hu hwalk
    · exact walk_self hv hinherited
  | _ => exact walk_of_not_object (fun _ h => nomatch h)

/-- Texts for the keys of the second group make no conflict, if this is so for the entries. -/
theorem walk_groups_respelled (hold : AreGroup first) (hnew : AreGroup members)
    (hfirst : Table.has first (.text valueKey) = false)
    (hvalue : Table.has members (.text valueKey) = false)
    (hwalk : walk (.object members) path inherited (.object first) = [])
    (hentries : ∀ key v, (textKeys members).get? key = some v → Conflict.isOwnKey key = false →
      ∀ w, (textKeys first).get? key = some w → ∀ type path, walk v path type w = [] →
        walk v.respelled path type w = []) :
    walk (ofTable (respelledTable (textKeys members))) path inherited (.object first) = [] := by
  have hkeys : (respelledTable (textKeys members)).keys.Nodup := by
    rw [keys_respelledTable]
    exact nodup_keys_textKeys members
  have hgroup : (respelledTable (textKeys members)).has valueKey = false := by
    rw [has_respelledTable_value, has_textKeys_value, hvalue]
  rw [walk_groups_eq_nil_iff hfirst hvalue hold.nodup hnew.nodup] at hwalk
  rw [ofTable, walk_groups_eq_nil_iff hfirst ((has_map_text _).trans hgroup) hold.nodup
    (nodup_keys_map_text hkeys), textKeys_map_text hkeys, pairType_respelledTable]
  intro key v' w hw hown hv'
  rw [get?_respelledTable, Option.map_eq_some_iff] at hv'
  obtain ⟨v, hv, rfl⟩ := hv'
  rw [respelledMember_entry hown]
  exact hentries key v hv hown w hw _ _ (hwalk key v w hw hown hv)

/-- Where the walk finds nothing, it finds nothing with texts for the keys of groups. -/
theorem walk_respelled (hw : w.IsEntry) (hv : v.IsEntry) (hwalk : walk v path inherited w = []) :
    walk v.respelled path inherited w = [] := by
  induction v using inductionOn generalizing inherited w path with
  | object members ih =>
    cases hvalue : Table.has members (.text valueKey) with
    | true => rwa [respelled_token hvalue]
    | false =>
      cases w with
      | object first =>
        cases hfirst : Table.has first (.text valueKey) with
        | true => exact absurd hwalk (walk_ne_nil (by simp [hfirst, hvalue]))
        | false =>
          have hold := hw.areGroup hfirst
          have hnew := hv.areGroup hvalue
          rw [respelled_group hvalue]
          refine walk_groups_respelled hold hnew hfirst hvalue hwalk ?_
          intro key v hget hown x hx type path hbelow
          have hentry := hnew.entry key v hget hown
          obtain ⟨m, hm, -, rfl⟩ := exists_mem_of_get?_textKeys hget
          exact ih m hm (hold.entry key x hx hown) hentry hbelow
      | _ => rw [walk]; intro _ h; cases h
  | _ => exact hwalk

/-! ### Documents

The members of a root are merged like those of a group, also where both roots are tokens.
The walk then looks at the types of the roots alone. -/

section Documents

variable {a b c : Keyed}

theorem unchecked_eq_ok_iff :
    unchecked (.object first) (.object members) = .ok c ↔
      ∃ t, overlayWith (groupMember (pairType (textKeys first) (textKeys members) none)
        (textKeys first)) (textKeys first) (textKeys members) = .ok t ∧ ofTable t = c := by
  rw [unchecked_objects, Value.map_eq_ok]

theorem documents_eq_ok_iff :
    documents a b = .ok c ↔ between a b = [] ∧ unchecked a b = .ok c := by
  unfold documents
  cases between a b with
  | nil => simp
  | cons first others => simp

theorem withTextKeys_ofTable {t : Table String Keyed} (h : t.keys.Nodup) :
    (ofTable t).withTextKeys = ofTable (respelledTable t) := by
  rw [ofTable, withTextKeys_object, textKeys_map_text h]

/-- A document merged over itself is itself, with texts for the keys of its groups. -/
theorem documents_self (ha : a.IsDocument)
    (htypes : ∀ t ∈ a.statedTypes, ∃ s, t = .scalar (.text s)) :
    documents a a = .ok a.withTextKeys := by
  obtain ⟨members, rfl⟩ := ha.object
  have hgroup := ha.areGroup htypes
  have hpair := isTextual_pairType hgroup.type hgroup.type isTextual_none
  refine documents_eq_ok_iff.mpr ⟨?_, unchecked_eq_ok_iff.mpr
    ⟨_, ?_, withTextKeys_object.symm⟩⟩
  · rw [between]
    cases hvalue : Table.has members (.text valueKey) with
    | true =>
      rw [walk_of_tokens hvalue hvalue]
      exact ofTokens_of_type_eq rfl hgroup.rootType isTextual_none
    | false =>
      rw [walk_groups_eq_nil_iff hvalue hvalue hgroup.nodup hgroup.nodup]
      intro key v w hw hown hv
      obtain rfl : w = v := Option.some.inj (hw.symm.trans hv)
      exact walk_self (hgroup.entry key w hw hown) hpair
  · exact groups_self hgroup fun key v hget hown =>
      child_self (hgroup.entry key v hget hown) hpair

/-- The roots state no types that differ, once one was merged over the other. -/
theorem ofTokens_of_laid_group {old t : Table String Keyed} (hnew : AreGroup members)
    (h : Laid (groupMember type old) old (textKeys members) t) :
    ofTokens (ofTable t) (.object members) path none = [] := by
  rw [ofTokens_eq_nil_iff]
  intro r s hr hs
  obtain ⟨hmem, hstated⟩ := firstStated_cases hs
  simp only [List.mem_cons, List.not_mem_nil, or_false, reduceCtorEq] at hmem
  have hget : (textKeys members).get? typeKey = some s := by
    rw [get?_textKeys_own hnew.nodup Merge.isOwnKey_typeKey]
    exact hmem.symm
  obtain ⟨w, hw, ht⟩ := h.member _ s hget
  rw [groupMember_own Merge.isOwnKey_typeKey, ownMember_type, hstated] at hw
  obtain rfl : s = w := Except.ok.inj hw
  have hfirst : firstStated [typeOf (ofTable t), none] = some s := by
    rw [typeOf_ofTable, ht]
    simp [firstStated, hstated]
  obtain rfl : r = s := Option.some.inj (hr.symm.trans hfirst)
  obtain ⟨text, rfl⟩ := hnew.type r hget
  exact same_text text

/-- The walk over the roots finds nothing again, once one was merged over the other. -/
theorem between_again {t : Table String Keyed} (hold : AreGroup first) (hnew : AreGroup members)
    (hlaid : Laid (groupMember (pairType (textKeys first) (textKeys members) none)
      (textKeys first)) (textKeys first) (textKeys members) t)
    (hwalk : between (.object first) (.object members) = []) :
    between (ofTable t) (.object members) = [] := by
  rw [between] at hwalk ⊢
  cases hvalue : Table.has members (.text valueKey) with
  | true =>
    have htoken : t.has valueKey = true := by
      rw [hlaid.has_eq, has_textKeys_value members, hvalue, Bool.or_true]
    rw [ofTable, walk_of_tokens ((has_map_text t).trans htoken) hvalue]
    exact ofTokens_of_laid_group hnew hlaid
  | false =>
    cases hfirst : Table.has first (.text valueKey) with
    | true => exact absurd hwalk (walk_ne_nil (by simp [hfirst, hvalue]))
    | false =>
      refine walk_groups_again hold hnew hfirst hvalue isTextual_none hlaid hwalk ?_
      intro key v hget hown w u hw hu path hwalk
      exact walk_again (hold.entry key w hw hown) (hnew.entry key v hget hown)
        (isTextual_pairType hold.type hnew.type isTextual_none) hu hwalk

/-- Texts for the keys of the second document's groups make no conflict. -/
theorem between_withTextKeys (hold : AreGroup first) (hnew : AreGroup members)
    (hwalk : between (.object first) (.object members) = []) :
    between (.object first) (Keyed.object members).withTextKeys = [] := by
  rw [between] at hwalk ⊢
  rw [withTextKeys_object]
  cases hvalue : Table.has members (.text valueKey) with
  | false =>
    cases hfirst : Table.has first (.text valueKey) with
    | true => exact absurd hwalk (walk_ne_nil (by simp [hfirst, hvalue]))
    | false =>
      refine walk_groups_respelled hold hnew hfirst hvalue hwalk ?_
      intro key v hv hown w hw type path hbelow
      exact walk_respelled (hold.entry key w hw hown) (hnew.entry key v hv hown) hbelow
  | true =>
    cases hfirst : Table.has first (.text valueKey) with
    | false => exact absurd hwalk (walk_ne_nil (by simp [hfirst, hvalue]))
    | true =>
      have htoken : (respelledTable (textKeys members)).has valueKey = true := by
        rw [has_respelledTable_value, has_textKeys_value, hvalue]
      have htype : typeOf (ofTable (respelledTable (textKeys members))) =
          typeOf (.object members) := by
        rw [typeOf_ofTable, get?_respelledTable_own Merge.isOwnKey_typeKey,
          get?_textKeys_own hnew.nodup Merge.isOwnKey_typeKey]
        rfl
      rw [walk_of_tokens hfirst hvalue, ofTokens_eq_nil_iff] at hwalk
      rw [ofTable, walk_of_tokens hfirst ((has_map_text _).trans htoken), ofTokens_eq_nil_iff]
      exact htype.symm ▸ hwalk

/-- Merging a document again right after itself finds no conflict and changes the keys of groups
alone. -/
theorem documents_twice (ha : a.IsDocument) (hb : b.IsDocument)
    (hatypes : ∀ t ∈ a.statedTypes, ∃ s, t = .scalar (.text s))
    (hbtypes : ∀ t ∈ b.statedTypes, ∃ s, t = .scalar (.text s)) (h : documents a b = .ok c) :
    ∃ d, documents c b = .ok d ∧ documents a b.withTextKeys = .ok d ∧
      d.withTextKeys = c.withTextKeys := by
  obtain ⟨first, rfl⟩ := ha.object
  obtain ⟨members, rfl⟩ := hb.object
  have hold := ha.areGroup hatypes
  have hnew := hb.areGroup hbtypes
  have hpair := isTextual_pairType hold.type hnew.type isTextual_none
  obtain ⟨hwalk, hmerged⟩ := documents_eq_ok_iff.mp h
  obtain ⟨t, ht, rfl⟩ := unchecked_eq_ok_iff.mp hmerged
  have hlaid := Merge.laid_of_overlayWith (nodup_keys_textKeys members) ht
  have hkeys : t.keys.Nodup := hlaid.nodup (nodup_keys_textKeys _) (nodup_keys_textKeys _)
  obtain ⟨t', ht', hrespelled, hsame, hboth⟩ := groups_again hnew hlaid
    (fun key v hget hown => child_self (hnew.entry key v hget hown) hpair)
    (fun key v hget hown w u hw hu =>
      child_again (hold.entry key w hw hown) (hnew.entry key v hget hown) hpair hu)
  refine ⟨ofTable t', documents_eq_ok_iff.mpr ⟨?_, ?_⟩, documents_eq_ok_iff.mpr ⟨?_, ?_⟩, ?_⟩
  · exact between_again hold hnew hlaid hwalk
  · rw [ofTable, unchecked_eq_ok_iff, textKeys_map_text hkeys, pairType_laid hlaid]
    exact ⟨t', ht', rfl⟩
  · exact between_withTextKeys hold hnew hwalk
  · rw [withTextKeys_object, ofTable, unchecked_eq_ok_iff, textKeys_map_text,
      pairType_respelledTable]
    · exact ⟨t', hrespelled, rfl⟩
    · rw [keys_respelledTable]
      exact nodup_keys_textKeys members
  · rw [withTextKeys_ofTable (hsame ▸ hkeys), withTextKeys_ofTable hkeys, hboth]

/-- A document merged over itself gives itself back with texts for the keys of its groups.
Merging a document again right after itself succeeds and gives what the document gives with
texts for the keys of its groups: the result of the first merge, the order of the keys
included, with texts for the keys of the groups that it took over whole. -/
theorem documents_again {a b : Keyed} (ha : a.IsDocument) (hb : b.IsDocument)
    (hatypes : ∀ t ∈ a.statedTypes, ∃ s, t = .scalar (.text s))
    (hbtypes : ∀ t ∈ b.statedTypes, ∃ s, t = .scalar (.text s)) :
    documents a a = .ok a.withTextKeys ∧ (a.hasTextKeys = true → documents a a = .ok a) ∧
      ∀ c, documents a b = .ok c →
        (∃ d, documents c b = .ok d ∧ documents a b.withTextKeys = .ok d ∧
          d.withTextKeys = c.withTextKeys) ∧
        (b.hasTextKeys = true → documents c b = .ok c) := by
  have hself := documents_self ha hatypes
  refine ⟨hself, fun h => ?_, fun c hc => ?_⟩
  · rw [hself, withTextKeys_of_hasTextKeys ha h]
  · obtain ⟨d, hagain, hrespelled, hsame⟩ := documents_twice ha hb hatypes hbtypes hc
    refine ⟨⟨d, hagain, hrespelled, hsame⟩, fun h => ?_⟩
    rw [withTextKeys_of_hasTextKeys hb h, hc] at hrespelled
    rw [hagain, ← Except.ok.inj hrespelled]

/-- A scale of steps with numbers for keys. -/
def scale : Keyed :=
  .object [(.text "blue", .object [(.text "$type", .scalar (.text "color")),
    (.number 100 (by decide +kernel), .object [(.text "$value", .scalar (.text "red"))]),
    (.number 200 (by decide +kernel), .object [(.text "$value", .scalar (.text "green"))])])]

/-- A change to the scale, with a scale that is new. -/
def darkScale : Keyed :=
  .object [(.text "blue", .object [
      (.number 100 (by decide +kernel), .object [(.text "$value", .scalar (.text "navy"))])]),
    (.text "grey", .object [
      (.number 50 (by decide +kernel), .object [(.text "$value", .scalar (.text "black"))])])]

theorem isDocument_scale : scale.IsDocument := ⟨⟨_, rfl⟩, by decide +kernel⟩

theorem isDocument_darkScale : darkScale.IsDocument := ⟨⟨_, rfl⟩, by decide +kernel⟩

theorem statedTypes_scale : ∀ t ∈ scale.statedTypes, ∃ s, t = .scalar (.text s) := by
  have : scale.statedTypes = [.scalar (.text "color")] := by rfl
  simp [this]

theorem statedTypes_darkScale : ∀ t ∈ darkScale.statedTypes, ∃ s, t = .scalar (.text s) := by
  have : darkScale.statedTypes = [] := by rfl
  simp [this]

theorem documents_again_scale :
    scale.IsDocument ∧ darkScale.IsDocument ∧
      (∀ t ∈ scale.statedTypes, ∃ s, t = .scalar (.text s)) ∧
        (∀ t ∈ darkScale.statedTypes, ∃ s, t = .scalar (.text s)) ∧
          documents scale scale = .ok scale.withTextKeys ∧
            ∃ c d, documents scale darkScale = .ok c ∧ documents c darkScale = .ok d ∧
              d.withTextKeys = c.withTextKeys := by
  obtain ⟨hself, -, hagain⟩ := documents_again isDocument_scale isDocument_darkScale
    statedTypes_scale statedTypes_darkScale
  refine ⟨isDocument_scale, isDocument_darkScale, statedTypes_scale, statedTypes_darkScale,
    hself, ?_⟩
  cases hc : documents scale darkScale with
  | ok c =>
    obtain ⟨⟨d, hd, -, hsame⟩, -⟩ := hagain c hc
    exact ⟨c, d, rfl, hd, hsame⟩
  | error e =>
    have hok : (documents scale darkScale).toOption.isSome = true := by decide +kernel
    rw [hc] at hok
    cases hok

/-- A scale with numbers for keys does not give itself back, neither merged over itself nor
merged again over an empty document. -/
theorem documents_again_not_scale :
    scale.IsDocument ∧ (∀ t ∈ scale.statedTypes, ∃ s, t = .scalar (.text s)) ∧
      documents scale scale ≠ .ok scale ∧
        ∃ c, documents (.object []) scale = .ok c ∧ documents c scale ≠ .ok c := by
  have hfirst : documents (.object []) scale = .ok scale := by rfl
  have hne : documents scale scale ≠ .ok scale := by
    intro h
    have hkeys := congrArg (fun r => r.toOption.map hasTextKeys) h
    exact absurd hkeys (by decide +kernel)
  exact ⟨isDocument_scale, statedTypes_scale, hne, scale, hfirst, hne⟩

end Documents

end Keyed

end DesignTokens

import DesignTokens.Proofs.Merge.Entries
import DesignTokens.Proofs.Merge.Keyed

/-!
# Documents whose keys are texts

Where all keys are texts, documents with numbers for keys are no more than documents:
`Keyed.ofValue` takes conflicts to conflicts (`between_ofValue`) and a merge to the merge
(`documents_ofValue`).  Nothing is found under a text that was not there before, so groups
are read as they stand, and each step of the one merge is the same step of the other.
-/

namespace DesignTokens

section Map

variable {α β : Type}

def Mismatch.map (f : α → β) : Mismatch α → Mismatch β
  | .tokenAndGroup tokenIsLeft => .tokenAndGroup tokenIsLeft
  | .types left right => .types (f left) (f right)

def Conflict.map (f : α → β) (c : Conflict α) : Conflict β :=
  ⟨c.path, c.mismatch.map f, f c.left, f c.right⟩

def MergeError.map (f : α → β) : MergeError α → MergeError β
  | .conflicts first others => .conflicts (first.map f) (others.map (Conflict.map f))
  | .typeWithoutName type => .typeWithoutName (f type)

end Map

namespace Merge

/-- Members laid over a table under other keys and with other values. -/
theorem overlayWith_map {κ ι α β ε δ : Type} [DecidableEq κ] [DecidableEq ι] {k : κ → ι}
    (hk : Function.Injective k) (g : α → β) (e : ε → δ) {f : κ → α → Except ε α}
    {f' : ι → β → Except δ β} (result : Table κ α) {members : List (κ × α)}
    (h : ∀ m ∈ members, f' (k m.1) (g m.2) = ((f m.1 m.2).mapError e).map g) :
    overlayWith f' (result.map fun m => (k m.1, g m.2)) (members.map fun m => (k m.1, g m.2)) =
      ((overlayWith f result members).mapError e).map fun t => t.map fun m => (k m.1, g m.2) := by
  induction members generalizing result with
  | nil => rfl
  | cons m members ih =>
    obtain ⟨hm, hmembers⟩ := List.forall_mem_cons.mp h
    rw [List.map_cons, overlayWith_cons, overlayWith_cons, hm]
    cases f m.1 m.2 with
    | error e => rfl
    | ok v =>
      have hput : Table.put (result.map fun m => (k m.1, g m.2)) (k m.1) (g v) =
          (result.put m.1 v).map fun m => (k m.1, g m.2) :=
        Table.put_map_keys hk (fun _ v => g v) v
      exact (congrArg (overlayWith f' · _) hput).trans (ih _ hmembers)

theorem overlay_map {κ ι α β : Type} [DecidableEq κ] [DecidableEq ι] {k : κ → ι}
    (hk : Function.Injective k) (g : α → β) (a b : Table κ α) :
    overlay (a.map fun m => (k m.1, g m.2)) (b.map fun m => (k m.1, g m.2)) =
      (overlay a b).map fun m => (k m.1, g m.2) := by
  induction b generalizing a with
  | nil => rfl
  | cons m b ih =>
    have hput : Table.put (a.map fun m => (k m.1, g m.2)) (k m.1) (g m.2) =
        (a.put m.1 m.2).map fun m => (k m.1, g m.2) :=
      Table.put_map_keys hk (fun _ v => g v) m.2
    rw [List.map_cons, overlay_cons, overlay_cons, hput, ih]

end Merge

namespace Conflict

def walkMember (others : Table String Value) (path : String) (inherited : Option Value)
    (key : String) (v : Value) : List Conflict :=
  if isOwnKey key then []
  else
    match others.get? key with
    | some w => walk w (joinPath path key) inherited v
    | none => []

theorem walkMembers_eq_flatMap {others : Table String Value} {path : String}
    {inherited : Option Value} {members : List (String × Value)} :
    walkMembers others path inherited members =
      members.flatMap fun m => walkMember others path inherited m.1 m.2 := by
  induction members with
  | nil => rw [walkMembers, List.flatMap_nil]
  | cons m members ih =>
    obtain ⟨key, v⟩ := m
    rw [walkMembers, List.flatMap_cons]
    exact congrArg (walkMember others path inherited key v ++ ·) ih

end Conflict

namespace Keyed

open Merge (overlayWith)

/-- What became of documents whose keys are texts. -/
def ofResult (r : Except MergeError Value) : Except (MergeError Keyed) Keyed :=
  (r.mapError (MergeError.map ofValue)).map ofValue

variable {members old : Table String Value} {inherited type : Option Value} {key path : String}
  {a b v w : Value}

/-! ### Values -/

theorem ofMembers_eq (members : List (String × Value)) :
    ofMembers members = members.map fun m => (.text m.1, ofValue m.2) := by
  induction members with
  | nil => rfl
  | cons m members ih =>
    obtain ⟨key, v⟩ := m
    rw [ofMembers, ih]
    rfl

theorem get?_ofMembers (members : Table String Value) (key : String) :
    Table.get? (ofMembers members) (.text key) = (members.get? key).map ofValue := by
  rw [ofMembers_eq]
  exact Table.get?_map_keys Key.text_injective fun _ v => ofValue v

theorem has_ofMembers (members : Table String Value) (key : String) :
    Table.has (ofMembers members) (.text key) = members.has key := by
  rw [Table.has, get?_ofMembers, Option.isSome_map]
  rfl

theorem ofValue_object (members : List (String × Value)) :
    ofValue (.object members) = .object (ofMembers members) := by
  rw [ofValue]

theorem isToken_ofValue (v : Value) : (ofValue v).isToken = v.isToken := by
  cases v with
  | object members =>
    rw [ofValue_object]
    exact has_ofMembers members valueKey
  | _ => rfl

theorem isGroup_ofValue (v : Value) : (ofValue v).isGroup = v.isGroup := by
  cases v with
  | object members =>
    rw [ofValue_object]
    exact congrArg (!·) (has_ofMembers members valueKey)
  | _ => rfl

theorem typeOf_ofValue (v : Value) : (ofValue v).typeOf = (Conflict.typeOf v).map ofValue := by
  cases v with
  | object members =>
    rw [ofValue_object]
    exact get?_ofMembers members typeKey
  | _ => rfl

theorem isVacant_ofValue (v : Value) : (ofValue v).isVacant = v.isVacant := by
  cases v with
  | list items => cases items <;> rfl
  | object members => cases members <;> rfl
  | _ => rfl

theorem firstStated_ofValue (values : List (Option Value)) :
    firstStated (values.map (Option.map ofValue)) = (Value.firstStated values).map ofValue := by
  induction values with
  | nil => rfl
  | cons v values ih =>
    cases v with
    | none => exact ih
    | some v =>
      cases hvacant : v.isVacant with
      | true => simpa [firstStated, Value.firstStated, isVacant_ofValue, hvacant] using ih
      | false => simp [firstStated, Value.firstStated, Option.filter, isVacant_ofValue, hvacant]

mutual

theorem same_ofValue : ∀ v w : Value, (ofValue v).same (ofValue w) = v.same w := by
  intro v w
  cases v with
  | list items =>
    cases w with
    | list others =>
      rw [ofValue, ofValue, same, Value.same]
      exact sameItems_ofItems items others
    | _ => rfl
  | object members =>
    cases w with
    | object others =>
      rw [ofValue, ofValue, same, Value.same, sameMembers_ofMembers, ofMembers_eq, ofMembers_eq,
        List.length_map, List.length_map]
    | _ => rfl
  | _ => cases w <;> rfl

theorem sameItems_ofItems : ∀ items others : List Value,
    sameItems (ofItems items) (ofItems others) = Value.sameItems items others := by
  intro items others
  cases items with
  | nil => cases others <;> rfl
  | cons v items =>
    cases others with
    | nil => rfl
    | cons w others =>
      rw [ofItems, ofItems, sameItems, Value.sameItems, same_ofValue v w,
        sameItems_ofItems items others]

theorem sameMembers_ofMembers : ∀ (members : List (String × Value)) (others : Table String Value),
    sameMembers (ofMembers members) (ofMembers others) = Value.sameMembers members others := by
  intro members others
  cases members with
  | nil => rfl
  | cons m members =>
    obtain ⟨key, v⟩ := m
    rw [ofMembers, sameMembers, Value.sameMembers, get?_ofMembers,
      sameMembers_ofMembers members others]
    cases others.get? key with
    | none => rfl
    | some w => exact congrArg (· && _) (same_ofValue v w)

end

theorem get?_map_ofValue (members : Table String Value) (key : String) :
    Table.get? (members.map fun m => (m.1, ofValue m.2)) key = (members.get? key).map ofValue :=
  Table.get?_map fun _ v => ofValue v

theorem textKeys_ofMembers (h : members.keys.Nodup) :
    textKeys (ofMembers members) = members.map fun m => (m.1, ofValue m.2) := by
  have hmap : (ofMembers members).map (fun m => (m.1.spelling, m.2)) =
      members.map fun m => (m.1, ofValue m.2) := by
    rw [ofMembers_eq, List.map_map]
    rfl
  have hkeys : Table.keys (members.map fun m => (m.1, ofValue m.2)) = members.keys :=
    Table.keys_map fun _ v => ofValue v
  rw [textKeys, hmap, Table.ofPairs_eq_self (hkeys ▸ h)]

/-! ### Conflicts -/

theorem ofTokens_ofValue (a b : Value) (path : String) (inherited : Option Value) :
    ofTokens (ofValue a) (ofValue b) path (inherited.map ofValue) =
      (Conflict.ofTokens a b path inherited).map (Conflict.map ofValue) := by
  have hfirst := fun v => firstStated_ofValue [Conflict.typeOf v, inherited]
  simp only [List.map_cons, List.map_nil, ← typeOf_ofValue] at hfirst
  rw [ofTokens, Conflict.ofTokens, hfirst a, hfirst b]
  cases Value.firstStated [Conflict.typeOf a, inherited] with
  | none => rfl
  | some s =>
    cases Value.firstStated [Conflict.typeOf b, inherited] with
    | none => rfl
    | some t =>
      simp only [Option.map_some, same_ofValue]
      split <;> rfl

theorem pairType_ofValue (old members : Table String Value) (inherited : Option Value) :
    firstStated [(ofValue (.object members)).typeOf, (ofValue (.object old)).typeOf,
      inherited.map ofValue] = (Merge.pairType old members inherited).map ofValue := by
  rw [typeOf_ofValue, typeOf_ofValue]
  exact firstStated_ofValue [members.get? typeKey, old.get? typeKey, inherited]

theorem walkMember_ofValue {others : Table String Value}
    (h : ∀ w path, others.get? key = some w →
      walk (ofValue w) path (inherited.map ofValue) (ofValue v) =
        (Conflict.walk w path inherited v).map (Conflict.map ofValue)) :
    walkMember (others.map fun m => (m.1, ofValue m.2)) path (inherited.map ofValue) key
        (ofValue v) =
      (Conflict.walkMember others path inherited key v).map (Conflict.map ofValue) := by
  rw [walkMember, Conflict.walkMember, get?_map_ofValue]
  split
  · rfl
  · cases hw : others.get? key with
    | none => rfl
    | some w => exact h w _ hw

theorem walk_ofValue (inherited : Option Value) (hv : v.KeysDistinct) (hw : w.KeysDistinct) :
    walk (ofValue w) path (inherited.map ofValue) (ofValue v) =
      (Conflict.walk w path inherited v).map (Conflict.map ofValue) := by
  induction v using Value.inductionOn generalizing w path inherited with
  | object old ih =>
    cases w with
    | object members =>
      cases hold : Table.has old valueKey with
      | true =>
        cases hmembers : Table.has members valueKey with
        | true =>
          have htokens := ofTokens_ofValue (.object old) (.object members) path inherited
          rw [ofValue_object, ofValue_object] at htokens ⊢
          rw [walk_of_tokens ((has_ofMembers _ _).trans hold)
            ((has_ofMembers _ _).trans hmembers), Conflict.walk_of_tokens hold hmembers, htokens]
        | false =>
          rw [ofValue_object, ofValue_object, walk_of_token_group ((has_ofMembers _ _).trans hold)
            ((has_ofMembers _ _).trans hmembers), Conflict.walk_of_token_group hold hmembers]
          simp [Conflict.map, Mismatch.map, ofValue_object]
      | false =>
        cases hmembers : Table.has members valueKey with
        | true =>
          rw [ofValue_object, ofValue_object, walk_of_group_token ((has_ofMembers _ _).trans hold)
            ((has_ofMembers _ _).trans hmembers), Conflict.walk_of_group_token hold hmembers]
          simp [Conflict.map, Mismatch.map, ofValue_object]
        | false =>
          have htype := pairType_ofValue old members inherited
          rw [ofValue_object, ofValue_object] at htype ⊢
          rw [walk_of_groups ((has_ofMembers _ _).trans hold)
            ((has_ofMembers _ _).trans hmembers), Conflict.walk_of_groups hold hmembers, htype,
            textKeys_ofMembers hv.nodup, textKeys_ofMembers hw.nodup, List.flatMap_map,
            Conflict.walkMembers_eq_flatMap, List.map_flatMap]
          refine List.flatMap_congr fun m hm => walkMember_ofValue fun w path hget => ?_
          exact ih m hm _ (hv.member (Table.get?_of_mem hv.nodup hm)) (hw.member hget)
    | _ =>
      rw [Conflict.walk_of_not_object (Or.inr rfl), walk_of_not_object]
      · rfl
      · intro _ h
        cases h
  | _ =>
    rw [Conflict.walk_of_not_object (Or.inl rfl), ofValue, walk]
    · rfl
    · intro _ h
      cases h

theorem between_ofValue (ha : a.KeysDistinct) (hb : b.KeysDistinct) :
    between (ofValue a) (ofValue b) = (Conflict.between a b).map (Conflict.map ofValue) :=
  walk_ofValue none ha hb

/-! ### Members of tokens and of groups themselves -/

theorem overlay_ofMembers (old members : Table String Value) :
    Merge.overlay (ofMembers old) (ofMembers members) = ofMembers (Merge.overlay old members) := by
  rw [ofMembers_eq, ofMembers_eq, ofMembers_eq]
  exact Merge.overlay_map Key.text_injective ofValue old members

theorem deep_ofValue (v w : Value) : deep (ofValue v) (ofValue w) = ofValue (Merge.deep v w) := by
  induction w using Value.inductionOn generalizing v with
  | object members ih =>
    cases v with
    | object old =>
      have hmap : (ofMembers members).map (fun m => (m.1, deepMember (ofMembers old) m.1 m.2)) =
          ofMembers (members.map fun m => (m.1, Merge.deepMember old m.1 m.2)) := by
        rw [ofMembers_eq members, ofMembers_eq (members.map _), List.map_map, List.map_map]
        refine List.map_congr_left fun m hm => congrArg (Prod.mk (Key.text m.1)) ?_
        show deepMember (ofMembers old) (.text m.1) (ofValue m.2) =
          ofValue (Merge.deepMember old m.1 m.2)
        rw [deepMember, get?_ofMembers, Merge.deepMember]
        cases Table.get? old m.1 with
        | none => rfl
        | some x => exact ih m hm x
      rw [ofValue_object, ofValue_object, deep_objects, Merge.deep_objects, ofValue_object,
        deepMembers_eq, Merge.deepMembers_eq, hmap, overlay_ofMembers]
    | _ =>
      rw [Merge.deep_of_not_object (Or.inl rfl), ofValue_object, deep]
      intro _ h
      cases h
  | _ =>
    rw [Merge.deep_of_not_object (Or.inr rfl), ofValue, deep]
    intro _ h
    cases h

theorem isTypeName_ofValue (type : Option Value) :
    isTypeName (type.map ofValue) = Merge.isTypeName type := by
  cases type with
  | none => rfl
  | some t => cases t <;> rfl

theorem values_ofValue (type : Option Value) (v w : Value) :
    values (type.map ofValue) (ofValue v) (ofValue w) = ofResult (Merge.values type v w) := by
  cases w with
  | object members =>
    cases v with
    | object old =>
      rw [ofValue_object, ofValue_object, values, Merge.values, isTypeName_ofValue,
        overlay_ofMembers]
      split
      · rw [← ofValue_object]
        rfl
      · cases type <;> rfl
    | _ => rw [ofValue_object]; rfl
  | _ => cases v <;> rfl

theorem tokenMember_ofValue (type : Option Value) (old : Table String Value) (key : String)
    (v : Value) :
    tokenMember (type.map ofValue) (ofMembers old) (.text key) (ofValue v) =
      ofResult (Merge.tokenMember type old key v) := by
  rw [tokenMember, Merge.tokenMember, get?_ofMembers]
  simp only [Key.text.injEq]
  split
  · cases old.get? key with
    | none => exact values_ofValue type .null v
    | some w => exact values_ofValue type w v
  · split
    · cases old.get? key with
      | none => exact congrArg Except.ok (deep_ofValue (.object []) v)
      | some w => exact congrArg Except.ok (deep_ofValue w v)
    · rfl

theorem tokens_ofValue (inherited : Option Value) (old members : Table String Value) :
    tokens (inherited.map ofValue) (ofMembers old) (ofMembers members) =
      ofResult (Merge.tokens inherited old members) := by
  have htype : firstStated [Table.get? (ofMembers members) (.text typeKey),
      Table.get? (ofMembers old) (.text typeKey), inherited.map ofValue] =
        (Merge.pairType old members inherited).map ofValue := by
    rw [get?_ofMembers, get?_ofMembers]
    exact firstStated_ofValue [members.get? typeKey, old.get? typeKey, inherited]
  have hlaid := Merge.overlayWith_map Key.text_injective ofValue (MergeError.map ofValue) old
    fun m (_ : m ∈ members) =>
      tokenMember_ofValue (Merge.pairType old members inherited) old m.1 m.2
  rw [← ofMembers_eq, ← ofMembers_eq] at hlaid
  rw [tokens, htype, tokenMembers_eq, hlaid, Merge.tokens, Merge.tokenMembers_eq]
  cases overlayWith (Merge.tokenMember (Merge.pairType old members inherited) old) old members with
  | error e => rfl
  | ok t =>
    refine congrArg Except.ok ?_
    rw [ofValue_object, ofMembers_eq]

theorem ownMember_ofValue (old : Table String Value) (key : String) (v : Value) :
    ownMember (old.map fun m => (m.1, ofValue m.2)) key (ofValue v) =
      ofValue (Merge.ownMember old key v) := by
  rw [ownMember, Merge.ownMember, get?_map_ofValue, isVacant_ofValue]
  split
  · split
    · cases old.get? key <;> rfl
    · rfl
  · cases old.get? key with
    | none => rfl
    | some w => exact deep_ofValue w v

/-! ### Groups and documents -/

theorem groupMember_ofValue {type : Option Value} {old : Table String Value} {key : String}
    {v : Value} (h : ∀ w, old.get? key = some w →
      child (type.map ofValue) (ofValue w) (ofValue v) = ofResult (Merge.child type w v)) :
    groupMember (type.map ofValue) (old.map fun m => (m.1, ofValue m.2)) key (ofValue v) =
      ofResult (Merge.groupMember type old key v) := by
  rw [groupMember, Merge.groupMember, get?_map_ofValue, ownMember_ofValue]
  split
  · rfl
  · cases hw : old.get? key with
    | none => rfl
    | some w => exact h w hw

/-- A group whose keys are texts is laid over another as it stands. -/
theorem laid_ofValue (hold : old.keys.Nodup) (hmembers : members.keys.Nodup)
    (h : ∀ m ∈ members, groupMember (type.map ofValue) (old.map fun m => (m.1, ofValue m.2)) m.1
      (ofValue m.2) = ofResult (Merge.groupMember type old m.1 m.2)) :
    (overlayWith (groupMember (type.map ofValue) (textKeys (ofMembers old)))
        (textKeys (ofMembers old)) (textKeys (ofMembers members))).map ofTable =
      ofResult ((overlayWith (Merge.groupMember type old) old members).map .object) := by
  rw [textKeys_ofMembers hold, textKeys_ofMembers hmembers]
  have hlaid := Merge.overlayWith_map Function.injective_id ofValue (MergeError.map ofValue) old h
  refine (congrArg (Except.map ofTable) hlaid).trans ?_
  cases overlayWith (Merge.groupMember type old) old members with
  | error e => rfl
  | ok t =>
    refine congrArg Except.ok ?_
    rw [ofValue_object, ofMembers_eq, ofTable, List.map_map]
    rfl

theorem pairType_textKeys (hold : old.keys.Nodup) (hmembers : members.keys.Nodup)
    (inherited : Option Value) :
    pairType (textKeys (ofMembers old)) (textKeys (ofMembers members)) (inherited.map ofValue) =
      (Merge.pairType old members inherited).map ofValue := by
  rw [textKeys_ofMembers hold, textKeys_ofMembers hmembers, pairType, get?_map_ofValue,
    get?_map_ofValue]
  exact firstStated_ofValue [members.get? typeKey, old.get? typeKey, inherited]

theorem child_ofValue (hw : w.KeysDistinct) (hv : v.KeysDistinct) :
    child (inherited.map ofValue) (ofValue w) (ofValue v) =
      ofResult (Merge.child inherited w v) := by
  induction v using Value.inductionOn generalizing inherited w with
  | object members ih =>
    cases htokens : w.isToken && (Value.object members).isToken with
    | true =>
      rw [Bool.and_eq_true] at htokens
      obtain ⟨old, rfl, hold⟩ := Value.eq_object_of_isToken htokens.1
      rw [Merge.child_of_tokens hold htokens.2, ofValue_object, ofValue_object,
        child_of_tokens ((has_ofMembers _ _).trans hold) ((has_ofMembers _ _).trans htokens.2),
        tokens_ofValue]
    | false =>
      cases hgroups : w.isGroup && (Value.object members).isGroup with
      | true =>
        rw [Bool.and_eq_true] at hgroups
        obtain ⟨old, rfl, hold⟩ := Value.eq_object_of_isGroup hgroups.1
        have hmembers : Table.has members valueKey = false := by simpa using hgroups.2
        rw [Merge.child_of_groups hold hmembers, Merge.groupMembers_eq, ofValue_object,
          ofValue_object, child_of_groups ((has_ofMembers _ _).trans hold)
            ((has_ofMembers _ _).trans hmembers), pairType_textKeys hw.nodup hv.nodup]
        refine laid_ofValue hw.nodup hv.nodup fun m hm => groupMember_ofValue fun x hx => ?_
        exact ih m hm (hw.member hx) (hv.member (Table.get?_of_mem hv.nodup hm))
      | false =>
        rw [Merge.child_of_mixed htokens hgroups, child_of_mixed]
        · rfl
        · rwa [isToken_ofValue, isToken_ofValue]
        · rwa [isGroup_ofValue, isGroup_ofValue]
  | _ => rw [Merge.child_of_mixed (by simp [Value.isToken]) (by simp [Value.isGroup]),
      child_of_mixed (by simp [ofValue, isToken]) (by simp [ofValue, isGroup])]; rfl

/-- Where all keys are texts, documents are merged as they stand. -/
theorem documents_ofValue (ha : a.IsDocument) (hb : b.IsDocument) :
    documents (ofValue a) (ofValue b) = ofResult (Merge.documents a b) := by
  have hbetween := between_ofValue ha.keys hb.keys
  rw [documents, hbetween, Merge.documents]
  cases Conflict.between a b with
  | cons first others => rfl
  | nil =>
    obtain ⟨old, rfl⟩ := ha.exists_members
    obtain ⟨members, rfl⟩ := hb.exists_members
    have htype := pairType_textKeys ha.keys.nodup hb.keys.nodup none
    rw [ofValue_object, ofValue_object]
    refine (unchecked_objects (ofMembers old) (ofMembers members)).trans ?_
    rw [← Option.map_none ofValue, htype]
    refine (laid_ofValue ha.keys.nodup hb.keys.nodup fun m hm => groupMember_ofValue
      fun x hx => ?_).trans (congrArg ofResult Merge.unchecked_objects.symm)
    exact child_ofValue (ha.keys.member hx) (hb.keys.member (Table.get?_of_mem hb.keys.nodup hm))

/-! ### Messages -/

mutual

theorem shown_ofValue : ∀ v : Value, (ofValue v).shown = v.shown := by
  intro v
  cases v with
  | list items => rw [ofValue, shown, Value.shown, shownItems_ofItems items]
  | object members => rw [ofValue, shown, Value.shown, shownMembers_ofMembers members]
  | _ => rfl

theorem shownItems_ofItems : ∀ items : List Value,
    shownItems (ofItems items) = Value.shownItems items
  | [] => rfl
  | [v] => by rw [ofItems, ofItems, shownItems, Value.shownItems, shown_ofValue v]
  | v :: w :: items => by
    have hrest := shownItems_ofItems (w :: items)
    rw [ofItems] at hrest
    rw [ofItems, ofItems, shownItems, Value.shownItems, shown_ofValue v, hrest]
    all_goals exact List.cons_ne_nil _ _

theorem shownMembers_ofMembers : ∀ members : List (String × Value),
    shownMembers (ofMembers members) = Value.shownMembers members
  | [] => rfl
  | [(key, v)] => by
    rw [ofMembers, ofMembers, shownMembers, Value.shownMembers, shown_ofValue v, Key.shown]
  | (key, v) :: m :: members => by
    have hrest := shownMembers_ofMembers (m :: members)
    rw [ofMembers] at hrest
    rw [ofMembers, ofMembers, shownMembers, Value.shownMembers, shown_ofValue v, Key.shown, hrest]
    all_goals exact List.cons_ne_nil _ _

end

theorem plain_ofValue (v : Value) : (ofValue v).plain = v.plain := by
  cases v with
  | list items => exact shown_ofValue (.list items)
  | object members => exact shown_ofValue (.object members)
  | _ => rfl

theorem message_map (c : Conflict) : (c.map ofValue).message = c.message := by
  obtain ⟨path, mismatch, left, right⟩ := c
  cases mismatch with
  | tokenAndGroup tokenIsLeft => rfl
  | types s t =>
    show "Type mismatch: " ++ (ofValue s).plain ++ " vs " ++ (ofValue t).plain = _
    rw [plain_ofValue, plain_ofValue]
    rfl

theorem describe_map (c : Conflict) : (c.map ofValue).describe = c.describe := by
  have hdescribed : ∀ v, Display.described Value.describedLimit (ofValue v) =
      Display.described Value.describedLimit v := by
    intro v
    have hshown : Display.shown (ofValue v) = Display.shown v := shown_ofValue v
    rw [Display.described, hshown]
    rfl
  have hkind : (c.map ofValue).mismatch.kindName = c.mismatch.kindName := by
    obtain ⟨path, mismatch, left, right⟩ := c
    cases mismatch <;> rfl
  rw [Conflict.describe, message_map, hkind]
  simp only [Conflict.map, hdescribed]
  rfl

/-- Where all keys are texts, a rejected merge is reported in the same words. -/
theorem conflictMessage_map (first : Conflict) (others : List Conflict) :
    MergeError.conflictMessage (first.map ofValue) (others.map (Conflict.map ofValue)) =
      MergeError.conflictMessage first others := by
  have hlines : (((others.map (Conflict.map ofValue)).take MergeError.listedConflicts).map
      fun c => "  - " ++ c.path ++ ": " ++ c.message) =
        (others.take MergeError.listedConflicts).map
          fun c => "  - " ++ c.path ++ ": " ++ c.message := by
    rw [← List.map_take, List.map_map]
    refine List.map_congr_left fun c _ => ?_
    exact congrArg ("  - " ++ c.path ++ ": " ++ ·) (message_map c)
  unfold MergeError.conflictMessage
  rw [describe_map, hlines, List.length_map, List.isEmpty_map]

end Keyed

end DesignTokens

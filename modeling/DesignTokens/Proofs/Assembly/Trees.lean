import DesignTokens.Proofs.Assembly.Steps
import DesignTokens.Proofs.Token.Prepared

/-!
# Walks through trees, and trees with an assembled token

A pointer is walked to the token whose place its segments begin with
(`Pointer.walk_eq_ok_iff`), and the rest of the segments is followed down into a value.

An assembled token knows the references of its new value (`Token.Tracked.assembled`),
so a tree stays prepared when one of its tokens is assembled
(`Group.Prepared.modifyToken`), and it has its tokens where it had them before
(`Group.Grown`).
-/

namespace DesignTokens

/-! ### Pointers -/

namespace Pointer

/-- What the items of a list and the members of an object have with them, the parts of a value have
with it. -/
theorem of_descend {P : Value → Prop} (hlist : ∀ {items}, P (.list items) → ∀ v ∈ items, P v)
    (hobject : ∀ {members}, P (.object members) → ∀ m ∈ members, P m.2) {raw : String}
    {segments : List String} {v w : Value} (hv : P v)
    (h : descend raw v segments = .ok (.ok w)) : P w := by
  induction segments generalizing v with
  | nil =>
    have he : v = w := by
      cases v <;> exact Except.ok.inj (Except.ok.inj h)
    exact he ▸ hv
  | cons segment rest ih =>
    cases v with
    | object members =>
      rw [descend] at h
      split at h
      · rename_i u hu
        exact ih (hobject hv _ (Table.mem_of_get? hu)) h
      · cases Except.ok.inj h
    | list items =>
      rw [descend] at h
      split at h
      · cases Except.ok.inj h
      · cases h
      · split at h
        · rename_i u hu
          exact ih (hlist hv _ (List.mem_of_getElem? hu)) h
        · cases Except.ok.inj h
    | _ => cases Except.ok.inj h

theorem everyObject_of_descend {P : List (String × Value) → Prop} {raw : String}
    {segments : List String} {v w : Value} (hv : v.EveryObject P)
    (h : descend raw v segments = .ok (.ok w)) : w.EveryObject P :=
  of_descend (P := Value.EveryObject P) Value.everyObject_list.mp
    (fun hm => (Value.everyObject_object.mp hm).2) hv h

/-- Segments that can be read end no work. -/
theorem exists_descend {raw : String} {segments : List String}
    (h : ∀ segment ∈ segments, index segment ≠ .unreadable) (v : Value) :
    ∃ result, descend raw v segments = .ok result := by
  induction segments generalizing v with
  | nil => exact ⟨.ok v, by cases v <;> rfl⟩
  | cons segment rest ih =>
    obtain ⟨hsegment, hrest⟩ := List.forall_mem_cons.mp h
    cases v with
    | object members =>
      rw [descend]
      split
      · exact ih hrest _
      · exact ⟨_, rfl⟩
    | list items =>
      rw [descend]
      split
      · exact ⟨_, rfl⟩
      · rename_i hindex
        exact absurd hindex hsegment
      · split
        · exact ih hrest _
        · exact ⟨_, rfl⟩
    | _ => exact ⟨_, rfl⟩

theorem tokenAt?_token {u t : Token} {below : Place} :
    (Node.token u).tokenAt? below = some t ↔ below = [] ∧ u = t := by
  cases below with
  | nil => exact ⟨fun h => ⟨rfl, Option.some.inj h⟩, fun h => congrArg some h.2⟩
  | cons key below => exact ⟨nofun, nofun⟩

/-- A walk that has reached a token ends there, or goes on below its value. -/
theorem walk_token_eq_ok_iff {raw : String} {here place : Place} {u t : Token}
    {segments rest : List String} :
    walk raw here (.token u) segments = .ok (place, t, rest) ↔
      ∃ below, place = here ++ below ∧ (Node.token u).tokenAt? below = some t ∧
        ((segments = below ∧ rest = []) ∨ segments = below ++ valueKey :: rest) := by
  have hwalk : walk raw here (.token u) segments = .ok (place, t, rest) ↔
      here = place ∧ u = t ∧ ((segments = [] ∧ rest = []) ∨ segments = valueKey :: rest) := by
    cases segments with
    | nil =>
      rw [walk]
      simp [eq_comm]
    | cons segment segments =>
      rw [walk]
      by_cases hsegment : segment = valueKey
      · simp [hsegment]
      · simp [hsegment]
  rw [hwalk]
  constructor
  · rintro ⟨rfl, rfl, hsegments⟩
    exact ⟨[], (List.append_nil _).symm, rfl, hsegments⟩
  · rintro ⟨below, rfl, hat, hsegments⟩
    obtain ⟨rfl, rfl⟩ := tokenAt?_token.mp hat
    exact ⟨(List.append_nil _).symm, rfl, hsegments⟩

/-- A walk ends at the token whose place the segments begin with; the value of the token may
be named before the rest. -/
theorem walk_eq_ok_iff {raw : String} {here place : Place} {n : Node}
    {segments rest : List String} {t : Token} :
    walk raw here n segments = .ok (place, t, rest) ↔
      ∃ below, place = here ++ below ∧ n.tokenAt? below = some t ∧
        ((segments = below ∧ rest = []) ∨ segments = below ++ valueKey :: rest) := by
  induction segments generalizing here n with
  | nil =>
    cases n with
    | token u => exact walk_token_eq_ok_iff
    | group label children =>
      rw [walk]
      constructor
      · intro h
        cases h
      · rintro ⟨below, rfl, hat, ⟨rfl, rfl⟩ | hsegments⟩
        · cases hat
        · exact absurd hsegments.symm (by simp)
  | cons segment segments ih =>
    cases n with
    | token u => exact walk_token_eq_ok_iff
    | group label children =>
      rw [walk]
      constructor
      · intro h
        split at h
        · cases h
        · rename_i c hc
          obtain ⟨below, rfl, hat, hsegments⟩ := ih.mp h
          refine ⟨segment :: below, by simp, ?_, ?_⟩
          · rw [Node.tokenAt?_group_cons, hc]
            exact hat
          · rcases hsegments with ⟨rfl, rfl⟩ | rfl
            · exact Or.inl ⟨rfl, rfl⟩
            · exact Or.inr rfl
      · rintro ⟨below, rfl, hat, hsegments⟩
        cases below with
        | nil => cases hat
        | cons key below =>
          rw [Node.tokenAt?_group_cons] at hat
          obtain ⟨c, hc, hat⟩ := Option.bind_eq_some_iff.mp hat
          have hkey : segment = key := by
            rcases hsegments with ⟨he, -⟩ | he
            · exact (List.cons.inj he).1
            · exact (List.cons.inj he).1
          rw [hkey, hc]
          refine ih.mpr ⟨below, by simp, hat, ?_⟩
          rcases hsegments with ⟨he, hrest⟩ | he
          · exact Or.inl ⟨(List.cons.inj he).2, hrest⟩
          · exact Or.inr (List.cons.inj he).2

end Pointer

/-! ### Tokens and trees -/

theorem Token.Scanned.assembled {t : Token} (h : ∀ a ∈ t.references, Alias.HasSegments a)
    (value : Value) : (t.assembled value).Scanned := by
  have haliases : ∀ a ∈ (Scan.of value).aliases, a ∈ (t.assembled value).references :=
    fun a ha => List.mem_eraseDups.mpr (List.mem_append_right _ ha)
  have hmalformed : ∀ s ∈ (Scan.of value).malformed, s ∈ (t.assembled value).malformed := by
    intro s hs
    show s ∈ t.malformed ++ _
    by_cases hm : s ∈ t.malformed
    · exact List.mem_append_left _ hm
    · refine List.mem_append_right _ (List.mem_filter.mpr ⟨List.mem_eraseDups.mpr hs, ?_⟩)
      simpa using hm
  refine ⟨haliases, rfl, hmalformed, fun a ha => ?_, fun hresolved => ?_⟩
  · rcases List.mem_append.mp (List.mem_eraseDups.mp ha) with ha | ha
    · exact h a ha
    · exact Value.hasSegments_of_aliasOf_mem (Value.mem_aliases_iff.mp ha)
  · have hvalue : (t.assembled value).resolvedValue = value := if_pos hresolved
    have hnone : ((t.assembled value).references = [] ∧ (Scan.of value).pointers = []) ∧
        (t.assembled value).malformed = [] := by
      simpa only [Token.assembled, Bool.and_eq_true, List.isEmpty_iff] using hresolved
    obtain ⟨⟨hreferences, hpointers⟩, hnone⟩ := hnone
    rw [hvalue]
    refine Value.occurrences_eq_nil_of_scan ?_ hpointers ?_
    · exact List.eq_nil_iff_forall_not_mem.mpr fun a ha =>
        List.not_mem_nil (hreferences ▸ haliases a ha)
    · exact List.eq_nil_iff_forall_not_mem.mpr fun s hs =>
        List.not_mem_nil (hnone ▸ hmalformed s hs)

theorem Token.Tracked.assembled {t : Token} (h : t.Tracked) {value : Value}
    (hvalue : value.RefsAreTexts) : (t.assembled value).Tracked := by
  have hscanned := Token.Scanned.assembled h.hasSegments value
  refine ⟨hvalue, hscanned.aliases, hscanned.pointers, hscanned.malformed, hscanned.hasSegments, ?_,
    fun hresolved => if_pos hresolved⟩
  simp only [Token.assembled, Bool.and_eq_true, List.isEmpty_iff, and_assoc]

namespace Group

/-- A token of a prepared tree can be replaced by a tracked one with the same path. -/
theorem Prepared.modifyToken {g : Group} (h : g.Prepared) {place : Place} {u : Token}
    (hpath : u.path = pathAt place) (hu : u.Tracked) :
    (g.modifyToken place fun _ => u).Prepared := by
  have hat : ∀ other t, (g.modifyToken place fun _ => u).tokenAt? other = some t →
      ∃ t', g.tokenAt? other = some t' ∧ t.path = t'.path ∧ t.Tracked := by
    intro other t ht
    rw [tokenAt?_modifyToken] at ht
    split at ht
    · rename_i he
      obtain ⟨t', ht', rfl⟩ := Option.map_eq_some_iff.mp ht
      refine ⟨t', ht', ?_, hu⟩
      rw [hpath, h.path_eq other t' ht', he]
    · exact ⟨t, ht, rfl, h.tracked other t ht⟩
  refine ⟨label_modifyToken g place _ ▸ h.label_path, h.keysDistinct.modifyToken _ _,
    ?_, ?_, ?_⟩
  · intro other t ht
    obtain ⟨t', ht', hp, -⟩ := hat other t ht
    rw [hp, h.path_eq other t' ht']
  · intro other other' t t' ht ht' he
    obtain ⟨v, hv, hvpath, -⟩ := hat other t ht
    obtain ⟨v', hv', hvpath', -⟩ := hat other' t' ht'
    exact h.distinct other other' v v' hv hv' (hvpath.symm.trans (he.trans hvpath'))
  · intro other t ht
    obtain ⟨t', -, -, htracked⟩ := hat other t ht
    exact htracked

/-- A tree that is ready for resolution and has its tokens where another tree has. -/
structure Grown (before g : Group) : Prop where
  prepared : g.Prepared
  isSome_eq : ∀ place, (g.tokenAt? place).isSome = (before.tokenAt? place).isSome

theorem Grown.modifyToken {before g : Group} (h : before.Grown g) {place : Place} {u : Token}
    (hpath : u.path = pathAt place) (hu : u.Tracked) :
    before.Grown (g.modifyToken place fun _ => u) where
  prepared := h.prepared.modifyToken hpath hu
  isSome_eq := fun other => by
    rw [← h.isSome_eq other, tokenAt?_modifyToken]
    split
    · exact Option.isSome_map
    · rfl

/-- The paths of the tokens are what they were. -/
theorem Grown.path_eq {before g : Group} (hbefore : before.Prepared) (h : before.Grown g)
    (place : Place) :
    (g.tokenAt? place).map Token.path = (before.tokenAt? place).map Token.path := by
  have hsome := h.isSome_eq place
  cases ht : g.tokenAt? place with
  | none =>
    rw [ht] at hsome
    cases hb : before.tokenAt? place with
    | none => rfl
    | some b =>
      rw [hb] at hsome
      cases hsome
  | some t =>
    rw [ht] at hsome
    obtain ⟨b, hb⟩ := Option.isSome_iff_exists.mp hsome.symm
    rw [hb]
    exact congrArg some ((h.prepared.path_eq place t ht).trans (hbefore.path_eq place b hb).symm)

end Group

theorem Project.tree?_setTree (p : Project) (key other : String) (tree : Group) :
    (p.setTree key tree).tree? other =
      if other = key then (p.tree? other).map fun _ => tree else p.tree? other := by
  unfold tree? setTree
  dsimp only
  rw [Table.get?_modify]
  split
  · cases p.files.get? other <;> rfl
  · rfl

end DesignTokens

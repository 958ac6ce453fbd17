import DesignTokens.Proofs.Merge.Entries

/-!
# What a merge gives

`Joined` says what becomes of two entries that meet: two tokens are merged member by
member, two groups key by key, and of anything else the second entry is left.  The
entries below two groups meet key by key, so the entries at a place of two documents meet
in the same way as long as the second document has nothing in the way
(`combined_entryAt`); an entry that is no object is in the way (`entryAt?_of_blocked`).
-/

namespace DesignTokens

/-- What two optional values give: a value that stands alone stays as it is. -/
inductive Combined (R : Value → Value → Value → Prop) :
    Option Value → Option Value → Option Value → Prop
  | both {v w u : Value} (h : R v w u) : Combined R (some v) (some w) (some u)
  | first {v : Value} : Combined R (some v) none (some v)
  | second {w : Value} : Combined R none (some w) (some w)
  | neither : Combined R none none none

/-- The keys of a first table in their order, then the new ones of a second in theirs. -/
def Table.joinedKeys (a b : Table String Value) : List String :=
  a.keys ++ b.keys.filter (· ∉ a.keys)

theorem Table.has_joined {old new t : Table String Value} (h : t.keys = joinedKeys old new)
    (key : String) : t.has key = (old.has key || new.has key) := by
  rw [Bool.eq_iff_iff, Bool.or_eq_true, has_iff_mem_keys, has_iff_mem_keys, has_iff_mem_keys, h,
    joinedKeys, List.mem_append, List.mem_filter]
  by_cases hold : key ∈ old.keys
  · simp [hold]
  · simp [hold]

namespace Combined

variable {R : Value → Value → Value → Prop} {x y z : Option Value}

theorem only_first (x : Option Value) : Combined R x none x := by
  cases x with
  | none => exact .neither
  | some v => exact .first

theorem only_second (y : Option Value) : Combined R none y y := by
  cases y with
  | none => exact .neither
  | some w => exact .second

theorem bind (h : Combined R x y z) {f : Value → Option Value}
    (hf : ∀ v w u, y = some w → R v w u → Combined R (f v) (f w) (f u)) :
    Combined R (x.bind f) (y.bind f) (z.bind f) := by
  cases h with
  | both h => exact hf _ _ _ rfl h
  | first => exact only_first _
  | second => exact only_second _
  | neither => exact .neither

end Combined

namespace Value

/-- Objects merged at every depth; any other pair leaves its second value. -/
inductive DeepMerge : Value → Value → Value → Prop
  | objects {old new t : Table String Value} (keys : t.keys = Table.joinedKeys old new)
      (members : ∀ key, Combined DeepMerge (old.get? key) (new.get? key) (t.get? key)) :
      DeepMerge (.object old) (.object new) (.object t)
  | replaced {v w : Value} (h : v.isObject = false ∨ w.isObject = false) : DeepMerge v w w

/-- Objects merged field by field, where the second one wins; any other pair leaves its
second value. -/
inductive FieldMerge : Value → Value → Value → Prop
  | objects {old new t : Table String Value} (keys : t.keys = Table.joinedKeys old new)
      (fields : ∀ key, t.get? key = (new.get? key).or (old.get? key)) :
      FieldMerge (.object old) (.object new) (.object t)
  | replaced {v w : Value} (h : v.isObject = false ∨ w.isObject = false) : FieldMerge v w w

end Value

/-- What two tokens give. -/
structure TokenMerge (old new t : Table String Value) : Prop where
  keys : t.keys = Table.joinedKeys old new
  value : Combined Value.FieldMerge (old.get? valueKey) (new.get? valueKey) (t.get? valueKey)
  extensions : Combined Value.DeepMerge (old.get? Merge.extensionsKey)
    (new.get? Merge.extensionsKey) (t.get? Merge.extensionsKey)
  other : ∀ key, key ≠ valueKey → key ≠ Merge.extensionsKey →
    t.get? key = (new.get? key).or (old.get? key)

/-- What two entries give that meet without a conflict. -/
inductive Joined : Value → Value → Value → Prop
  | tokens {old new t : Table String Value} (hold : old.has valueKey = true)
      (hnew : new.has valueKey = true) (h : TokenMerge old new t) :
      Joined (.object old) (.object new) (.object t)
  | groups {old new t : Table String Value} (hold : old.has valueKey = false)
      (hnew : new.has valueKey = false) (keys : t.keys = Table.joinedKeys old new)
      (type : t.get? typeKey = (new.get? typeKey).or (old.get? typeKey))
      (entries : ∀ key, Conflict.isOwnKey key = false →
        Combined Joined (old.get? key) (new.get? key) (t.get? key)) :
      Joined (.object old) (.object new) (.object t)
  | replaced {v w : Value} (h : v.isObject = false ∨ w.isObject = false) : Joined v w w

namespace Merge

variable {f : String → Value → Except MergeError Value} {old members t : Table String Value}
  {type inherited : Option Value} {u v w : Value} {key path : String}

/-! ### Members -/

theorem Laid.combined {R : Value → Value → Value → Prop} (h : Laid f old members t)
    (hnew : ∀ v, old.get? key = none → members.get? key = some v → f key v = .ok v)
    (hboth : ∀ x v w, old.get? key = some x → members.get? key = some v → f key v = .ok w →
      R x v w) : Combined R (old.get? key) (members.get? key) (t.get? key) := by
  cases hmember : members.get? key with
  | none =>
    rw [h.rest key hmember]
    cases old.get? key with
    | none => exact .neither
    | some x => exact .first
  | some v =>
    obtain ⟨w, hw, ht⟩ := h.member key v hmember
    rw [ht]
    cases hold : old.get? key with
    | none =>
      obtain rfl : v = w := Except.ok.inj ((hnew v hold hmember).symm.trans hw)
      exact .second
    | some x => exact .both (hboth x v w hold hmember hw)

theorem laid_overlay (hmembers : (Table.keys members).Nodup) (g : String → Value → Value) :
    Laid (fun key v => (.ok (g key v) : Except MergeError Value)) old members
      (overlay old (members.map fun m => (m.1, g m.1 m.2))) := by
  refine laid_of_overlayWith hmembers ?_
  clear hmembers
  induction members generalizing old with
  | nil => rfl
  | cons m members ih => exact ih

theorem deepMerge_deep (hw : w.KeysDistinct) (v : Value) : Value.DeepMerge v w (deep v w) := by
  induction w using Value.inductionOn generalizing v with
  | object members ih =>
    obtain ⟨hkeys, hbelow⟩ := Value.keysDistinct_object.mp hw
    cases v with
    | object old =>
      have hlaid : Laid _ old members _ := laid_overlay hkeys (deepMember old)
      rw [deep_objects, deepMembers_eq]
      refine .objects hlaid.keys fun key => hlaid.combined ?_ ?_
      · intro v hold _
        rw [deepMember_none hold]
      · intro x v w hold hv hw
        rw [deepMember_some hold] at hw
        rw [← Except.ok.inj hw]
        exact ih (key, v) (Table.mem_of_get? hv) (hbelow _ (Table.mem_of_get? hv)) x
    | _ =>
      rw [deep_of_not_object (Or.inl rfl)]
      exact .replaced (Or.inl rfl)
  | _ =>
    rw [deep_of_not_object (Or.inr rfl)]
    exact .replaced (Or.inr rfl)

theorem fieldMerge_values (hw : w.KeysDistinct) (h : values type v w = .ok u) :
    Value.FieldMerge v w u := by
  cases w with
  | object members =>
    cases v with
    | object old =>
      rw [values] at h
      split at h
      · rw [← Except.ok.inj h]
        exact .objects (keys_overlay hw.nodup) fun key => get?_overlay hw.nodup
      · cases h
    | _ =>
      rw [values_of_not_object (Or.inl rfl)] at h
      rw [← Except.ok.inj h]
      exact .replaced (Or.inl rfl)
  | _ =>
    rw [values_of_not_object (Or.inr rfl)] at h
    rw [← Except.ok.inj h]
    exact .replaced (Or.inr rfl)

theorem overlay_empty (hmembers : members.keys.Nodup) : overlay [] members = members := by
  have hkeys : (overlay [] members).keys = members.keys := by
    rw [keys_overlay hmembers]
    simp [Table.keys]
  refine Table.ext_get? hkeys (hkeys ▸ hmembers) fun key _ => ?_
  rw [get?_overlay hmembers]
  exact Option.or_none

theorem deep_empty (hv : v.KeysDistinct) : deep (.object []) v = v := by
  cases v with
  | object members =>
    have hnew : members.map (fun m => (m.1, deepMember [] m.1 m.2)) = members := List.map_id _
    rw [deep_objects, deepMembers_eq, hnew, overlay_empty hv.nodup]
  | _ => exact deep_of_not_object (Or.inr rfl)

theorem tokenMerge_of_laid (hmembers : (Value.object members).KeysDistinct)
    (h : Laid (tokenMember type old) old members t) (hold : old.has valueKey = true) :
    TokenMerge old members t := by
  obtain ⟨v, hv⟩ := Option.isSome_iff_exists.mp hold
  refine ⟨h.keys, h.combined ?_ ?_, h.combined ?_ ?_, ?_⟩
  · intro w hnone _
    cases hv.symm.trans hnone
  · intro x w u hx hw hu
    rw [tokenMember, if_pos rfl, hx] at hu
    exact fieldMerge_values (hmembers.member hw) hu
  · intro w hnone hw
    rw [tokenMember, if_neg (by decide), if_pos rfl, hnone]
    exact congrArg Except.ok (deep_empty (hmembers.member hw))
  · intro x w u hx hw hu
    rw [tokenMember, if_neg (by decide), if_pos rfl, hx] at hu
    rw [← Except.ok.inj hu]
    exact deepMerge_deep (hmembers.member hw) x
  · intro key hvalue hextensions
    cases hmember : members.get? key with
    | none => exact h.rest key hmember
    | some w =>
      obtain ⟨u, hu, ht⟩ := h.member key w hmember
      rw [tokenMember, if_neg hvalue, if_neg hextensions] at hu
      rw [ht, ← Except.ok.inj hu]
      rfl

theorem get?_type_of_laid_group (h : Laid (groupMember type old) old members t)
    (hstated : ∀ v, members.get? typeKey = some v → v.isVacant = false) :
    t.get? typeKey = (members.get? typeKey).or (old.get? typeKey) := by
  cases hmember : members.get? typeKey with
  | none => exact h.rest _ hmember
  | some v =>
    obtain ⟨w, hw, ht⟩ := h.member _ v hmember
    rw [groupMember_own isOwnKey_typeKey, ownMember_type, hstated v hmember] at hw
    rw [ht, ← Except.ok.inj hw]
    rfl

/-! ### Entries -/

/-- Entries that meet without a conflict are joined, if the types that the second one
states say something. -/
theorem joined_child (hw : w.KeysDistinct) (htypes : ∀ t ∈ w.entryTypes, t.isVacant = false)
    (h : child inherited v w = .ok u) (hwalk : Conflict.walk w path inherited v = []) :
    Joined v w u := by
  induction w using Value.inductionOn generalizing inherited v u path with
  | object members ih =>
    rcases child_cases h with ⟨old, members', rfl, he, hold, hvalue, htokens⟩ |
      ⟨old, members', t, rfl, he, hold, hvalue, ht, rfl⟩ | ⟨htokens, hgroups, rfl⟩
    · cases he
      obtain ⟨t, ht, rfl⟩ := tokens_eq_ok_iff.mp htokens
      exact .tokens hold hvalue (tokenMerge_of_laid hw (laid_of_overlayWith hw.nodup ht) hold)
    · cases he
      have hlaid := laid_of_overlayWith hw.nodup ht
      rw [Conflict.walk_of_groups hold hvalue, Conflict.walkMembers_eq_nil_iff] at hwalk
      have htype := get?_type_of_laid_group hlaid fun v hv =>
        htypes v (Value.mem_entryTypes_of_type hv)
      refine .groups hold hvalue hlaid.keys htype fun key hown => hlaid.combined ?_ ?_
      · intro v hnone _
        exact groupMember_new hown hnone
      · intro x v w hx hv hchild
        rw [groupMember_child hown hx] at hchild
        refine ih (key, v) (Table.mem_of_get? hv) (hw.member hv) ?_ hchild
          (hwalk (key, x) (Table.mem_of_get? hx) hown v hv)
        exact fun t ht => htypes t (Value.mem_entryTypes_of_entry hvalue hown hv ht)
    · cases v with
      | object old =>
        refine absurd hwalk (Conflict.walk_ne_nil ?_)
        intro he
        rw [Value.isToken_object, Value.isToken_object, he, Bool.and_self] at htokens
        rw [Value.isGroup_object, Value.isGroup_object, he, Bool.and_self, htokens] at hgroups
        cases hgroups
      | _ => exact .replaced (Or.inl rfl)
  | _ =>
    rcases child_cases h with ⟨_, _, -, he, -⟩ | ⟨_, _, _, -, he, -⟩ | ⟨-, -, rfl⟩
    · cases he
    · cases he
    · exact .replaced (Or.inr rfl)

end Merge

/-! ### Places -/

namespace Joined

variable {a b c u w : Value} {front place : Place}

/-- The entries under a key meet, unless the second value has none. -/
theorem combined_entryUnder (h : Joined a b c) (hb : b.isObject = true) (key : String) :
    Combined Joined (a.entryUnder? key) (b.entryUnder? key) (c.entryUnder? key) := by
  cases hkey : Conflict.isOwnKey key with
  | true =>
    rw [Value.entryUnder?_own hkey, Value.entryUnder?_own hkey, Value.entryUnder?_own hkey]
    exact .neither
  | false =>
    cases h with
    | tokens hold hnew htokens =>
      rw [Value.entryUnder?_token hold, Value.entryUnder?_token hnew, Value.entryUnder?_token]
      · exact .neither
      · rw [Table.has_joined htokens.keys, hold, Bool.true_or]
    | groups hold hnew keys type entries =>
      rw [Value.entryUnder?_group hold hkey, Value.entryUnder?_group hnew hkey,
        Value.entryUnder?_group _ hkey]
      · exact entries key hkey
      · rw [Table.has_joined keys, hold, hnew, Bool.false_or]
    | replaced h =>
      rcases h with h | h
      · rw [Value.entryUnder?_of_not_object h]
        exact .only_second _
      · cases hb.symm.trans h

/-- The entries at a place meet, if the second document has nothing in the way. -/
theorem combined_entryAt (h : Joined a b c)
    (hb : ∀ front, front <+: place → front ≠ place → ∀ w, b.entryAt? front = some w →
      w.isObject = true) :
    Combined Joined (a.entryAt? place) (b.entryAt? place) (c.entryAt? place) := by
  induction place generalizing a b c with
  | nil => exact .both h
  | cons key place ih =>
    have hobject : b.isObject = true :=
      hb [] List.nil_prefix (List.cons_ne_nil key place).symm b rfl
    refine (h.combined_entryUnder hobject key).bind fun v w u hw hjoined => ih hjoined ?_
    intro front hfront hne x hx
    refine hb (key :: front) ?_ ?_ x (Value.entryAt?_cons_eq_some.mpr ⟨w, hw, hx⟩)
    · exact List.cons_prefix_cons.mpr ⟨rfl, hfront⟩
    · exact fun he => hne (List.cons.inj he).2

/-- What is no object in the second document is in the way of every entry at or below it. -/
theorem isObject_of_blocked (h : Joined a b c) (hw : b.entryAt? front = some w)
    (hobject : w.isObject = false) (hfront : front <+: place) (hu : c.entryAt? place = some u) :
    u.isObject = false := by
  have hmet := h.combined_entryAt fun front' hprefix hne x hx =>
    Value.isObject_of_prefix hw hprefix hne hx
  have hc : c.entryAt? front = some w := by
    rw [hw] at hmet
    generalize a.entryAt? front = x, c.entryAt? front = z at hmet ⊢
    cases hmet with
    | both hjoined =>
      cases hjoined with
      | replaced => rfl
      | _ => cases hobject
    | second => rfl
  obtain ⟨rest, rfl⟩ := hfront
  rw [Value.entryAt?_append, hc] at hu
  cases rest with
  | nil => exact Option.some.inj hu ▸ hobject
  | cons key rest => cases hobject.symm.trans (Value.isObject_of_entryAt?_cons hu)

theorem leavesOpen (h : Joined a b c) (hu : c.entryAt? place = some u)
    (hobject : u.isObject = true) :
    b.LeavesOpen place := by
  intro front hfront w hw
  cases hwobject : w.isObject with
  | true => rfl
  | false => cases hobject.symm.trans (h.isObject_of_blocked hw hwobject hfront hu)

end Joined

/-! ### Tokens and groups at a place -/

section

variable {x y z : Option Value} {old new t : Table String Value}

/-- A token of the result comes from two tokens or stood alone. -/
theorem Combined.token_cases (h : Combined Joined x y (some (.object t)))
    (ht : t.has valueKey = true) :
    (∃ old new : Table String Value, x = some (.object old) ∧ y = some (.object new) ∧
      old.has valueKey = true ∧ new.has valueKey = true) ∨
      y = some (.object t) ∨ (x = some (.object t) ∧ y = none) := by
  cases h with
  | both h =>
    cases h with
    | tokens hold hnew _ => exact Or.inl ⟨_, _, rfl, rfl, hold, hnew⟩
    | groups hold hnew keys =>
      rw [Table.has_joined keys, hold, hnew] at ht
      cases ht
    | replaced => exact Or.inr (Or.inl rfl)
  | first => exact Or.inr (Or.inr ⟨rfl, rfl⟩)
  | second => exact Or.inr (Or.inl rfl)

theorem Combined.tokens (h : Combined Joined (some (.object old)) (some (.object new)) z)
    (hold : old.has valueKey = true) :
    ∃ t : Table String Value, z = some (.object t) ∧ t.has valueKey = true ∧
      TokenMerge old new t := by
  cases h with
  | both h =>
    cases h with
    | @tokens _ _ t _ _ htokens =>
      refine ⟨t, rfl, ?_, htokens⟩
      rw [Table.has_joined htokens.keys, hold, Bool.true_or]
    | groups hgroup => cases hold.symm.trans hgroup
    | replaced hobject => rcases hobject with hobject | hobject <;> cases hobject

theorem Combined.groups (h : Combined Joined (some (.object old)) (some (.object new)) z)
    (hold : old.has valueKey = false) :
    ∃ t : Table String Value, z = some (.object t) ∧ t.has valueKey = false ∧
      t.get? typeKey = (new.get? typeKey).or (old.get? typeKey) := by
  cases h with
  | both h =>
    cases h with
    | tokens htoken => cases hold.symm.trans htoken
    | @groups _ _ t _ hnew keys type =>
      refine ⟨t, rfl, ?_, type⟩
      rw [Table.has_joined keys, hold, hnew, Bool.false_or]
    | replaced hobject => rcases hobject with hobject | hobject <;> cases hobject

/-- A token of the first document is a token of the result, if it meets no other value. -/
theorem Combined.token_of_first (h : Combined Joined (some (.object old)) y z)
    (hold : old.has valueKey = true) (hy : ∀ w, y = some w → w.isObject = true) :
    ∃ t : Table String Value, z = some (.object t) ∧ t.has valueKey = true := by
  cases h with
  | both h =>
    cases h with
    | @tokens _ _ t _ _ htokens =>
      refine ⟨t, rfl, ?_⟩
      rw [Table.has_joined htokens.keys, hold, Bool.true_or]
    | groups hgroup => cases hold.symm.trans hgroup
    | replaced hobject =>
      rcases hobject with hobject | hobject
      · cases hobject
      · cases (hy _ rfl).symm.trans hobject
  | first => exact ⟨old, rfl, hold⟩

theorem Combined.token_of_second (h : Combined Joined x (some (.object new)) z)
    (hnew : new.has valueKey = true)
    (hx : ∀ old : Table String Value, x = some (.object old) → old.has valueKey = false) :
    z = some (.object new) := by
  cases h with
  | both h =>
    cases h with
    | tokens htoken => cases (hx _ rfl).symm.trans htoken
    | groups _ hgroup => cases hnew.symm.trans hgroup
    | replaced => rfl
  | second => rfl

end

/-- What merging two documents gives, place by place. -/
structure MergeOutcome (a b c : Value) : Prop where
  /-- A token of the second document stays one, and so does one of the first document that
  nothing but objects of the second one meets. -/
  token_iff : ∀ place, (∃ w, c.TokenAt place w) ↔
    (∃ u, b.TokenAt place u) ∨ (∃ t, a.TokenAt place t) ∧ b.LeavesOpen place
  only_first : ∀ place t w, a.TokenAt place t → (∀ u, ¬b.TokenAt place u) →
    c.TokenAt place w → w = t
  only_second : ∀ place u, b.TokenAt place u → (∀ t, ¬a.TokenAt place t) → c.TokenAt place u
  both_tokens : ∀ place t u, a.TokenAt place t → b.TokenAt place u →
    ∃ w, c.TokenAt place w ∧ TokenMerge t u w
  both_groups : ∀ place t u, a.GroupAt place t → b.GroupAt place u →
    ∃ w, c.GroupAt place w ∧ w.get? typeKey = (u.get? typeKey).or (t.get? typeKey)
  keys : ∀ place w, c.GroupAt place w →
    w.keys = a.keysAt place ++ (b.keysAt place).filter (· ∉ a.keysAt place)

namespace Joined

variable {a b c : Value} {place : Place} {t u w : Table String Value}

theorem combined_of_some (h : Joined a b c) {v : Value} (hv : b.entryAt? place = some v) :
    Combined Joined (a.entryAt? place) (b.entryAt? place) (c.entryAt? place) :=
  h.combined_entryAt fun _ hfront hne _ hx => Value.isObject_of_prefix hv hfront hne hx

theorem combined_of_leavesOpen (h : Joined a b c) (hopen : b.LeavesOpen place) :
    Combined Joined (a.entryAt? place) (b.entryAt? place) (c.entryAt? place) :=
  h.combined_entryAt fun front hfront _ w hw => hopen front hfront w hw

theorem only_second (h : Joined a b c) (hu : b.TokenAt place u) (ha : ∀ t, ¬a.TokenAt place t) :
    c.TokenAt place u := by
  obtain ⟨hu, htoken⟩ := hu
  have hmet := h.combined_of_some hu
  rw [hu] at hmet
  refine ⟨hmet.token_of_second htoken fun t ht => ?_, htoken⟩
  exact Bool.eq_false_iff.mpr fun htoken => ha t ⟨ht, htoken⟩

theorem both_tokens (h : Joined a b c) (ht : a.TokenAt place t) (hu : b.TokenAt place u) :
    ∃ w, c.TokenAt place w ∧ TokenMerge t u w := by
  have hmet := h.combined_of_some hu.1
  rw [ht.1, hu.1] at hmet
  obtain ⟨w, hw, htoken, hmerge⟩ := hmet.tokens ht.2
  exact ⟨w, ⟨hw, htoken⟩, hmerge⟩

theorem token_iff (h : Joined a b c) : (∃ w, c.TokenAt place w) ↔
    (∃ u, b.TokenAt place u) ∨ (∃ t, a.TokenAt place t) ∧ b.LeavesOpen place := by
  constructor
  · rintro ⟨w, hw, htoken⟩
    have hopen := h.leavesOpen hw rfl
    have hmet := h.combined_of_leavesOpen hopen
    rw [hw] at hmet
    rcases hmet.token_cases htoken with ⟨_, u, -, hu, -, hnew⟩ | hu | ⟨ht, -⟩
    · exact Or.inl ⟨u, hu, hnew⟩
    · exact Or.inl ⟨w, hu, htoken⟩
    · exact Or.inr ⟨⟨w, ht, htoken⟩, hopen⟩
  · rintro (⟨u, hu⟩ | ⟨⟨t, ht⟩, hopen⟩)
    · by_cases ha : ∃ t, a.TokenAt place t
      · obtain ⟨t, ht⟩ := ha
        obtain ⟨w, hw, -⟩ := h.both_tokens ht hu
        exact ⟨w, hw⟩
      · exact ⟨u, h.only_second hu fun t ht => ha ⟨t, ht⟩⟩
    · have hmet := h.combined_of_leavesOpen hopen
      rw [ht.1] at hmet
      exact hmet.token_of_first ht.2 fun w hw => hopen place List.prefix_rfl w hw

theorem only_first (h : Joined a b c) (ht : a.TokenAt place t) (hb : ∀ u, ¬b.TokenAt place u)
    (hw : c.TokenAt place w) : w = t := by
  obtain ⟨hw, htoken⟩ := hw
  have hmet := h.combined_of_leavesOpen (h.leavesOpen hw rfl)
  rw [hw] at hmet
  rcases hmet.token_cases htoken with ⟨_, u, -, hu, -, hnew⟩ | hu | ⟨ht', -⟩
  · exact absurd ⟨hu, hnew⟩ (hb u)
  · exact absurd ⟨hu, htoken⟩ (hb w)
  · exact Value.object.inj (Option.some.inj (ht'.symm.trans ht.1))

theorem both_groups (h : Joined a b c) (ht : a.GroupAt place t) (hu : b.GroupAt place u) :
    ∃ w, c.GroupAt place w ∧ w.get? typeKey = (u.get? typeKey).or (t.get? typeKey) := by
  have hmet := h.combined_of_some hu.1
  rw [ht.1, hu.1] at hmet
  obtain ⟨w, hw, hgroup, htype⟩ := hmet.groups ht.2
  exact ⟨w, ⟨hw, hgroup⟩, htype⟩

/-- A group of the result has the keys of the first document, then the new ones. -/
theorem keys_group (h : Joined a b c) (hw : c.GroupAt place w) :
    w.keys = a.keysAt place ++ (b.keysAt place).filter (· ∉ a.keysAt place) := by
  obtain ⟨hw, hgroup⟩ := hw
  have hmet := h.combined_of_leavesOpen (h.leavesOpen hw rfl)
  rw [hw] at hmet
  generalize ha : a.entryAt? place = x, hb : b.entryAt? place = y at hmet
  cases hmet with
  | both hjoined =>
    cases hjoined with
    | tokens hold _ hmerge =>
      rw [Table.has_joined hmerge.keys, hold] at hgroup
      cases hgroup
    | groups hold hnew keys =>
      rw [Value.keysAt_group ha hold, Value.keysAt_group hb hnew]
      exact keys
    | replaced hobject =>
      rcases hobject with hobject | hobject
      · rw [Value.keysAt_of_not_object ha hobject, Value.keysAt_group hb hgroup]
        simp
      · cases hobject
  | first =>
    rw [Value.keysAt_group ha hgroup, Value.keysAt_of_none hb]
    exact (List.append_nil _).symm
  | second =>
    rw [Value.keysAt_of_none ha, Value.keysAt_group hb hgroup]
    simp

theorem outcome (h : Joined a b c) : MergeOutcome a b c where
  token_iff _ := h.token_iff
  only_first _ _ _ := h.only_first
  only_second _ _ := h.only_second
  both_tokens _ _ _ := h.both_tokens
  both_groups _ _ _ := h.both_groups
  keys _ _ := h.keys_group

end Joined

namespace Merge

variable {a b c : Value}

/-- A merge of documents without a root value that succeeds does what it should at every
place. -/
theorem documents_outcome (ha : a.isGroup = true) (hb : b.isGroup = true) (hkeys : b.KeysDistinct)
    (htypes : ∀ t ∈ b.statedTypes, ∃ s, t = .text s ∧ s ≠ "") (h : documents a b = .ok c) :
    MergeOutcome a b c := by
  obtain ⟨old, rfl, hold⟩ := Value.eq_object_of_isGroup ha
  obtain ⟨members, rfl, hmembers⟩ := Value.eq_object_of_isGroup hb
  obtain ⟨hwalk, hmerged⟩ := documents_eq_ok_iff.mp h
  have hchild : child none (.object old) (.object members) = .ok c := by
    rw [child_of_groups hold hmembers, groupMembers_eq, ← unchecked_objects]
    exact hmerged
  refine (joined_child hkeys (fun t ht => ?_) hchild hwalk).outcome
  rw [Value.entryTypes_of_isGroup hb] at ht
  obtain ⟨s, rfl, hs⟩ := htypes t ht
  exact Bool.eq_false_iff.mpr fun hvacant => hs (String.isEmpty_iff.mp hvacant)

theorem documents_outcome_palette :
    palette.isGroup = true ∧ darkPalette.isGroup = true ∧ darkPalette.KeysDistinct ∧
      (∀ t ∈ darkPalette.statedTypes, ∃ s, t = .text s ∧ s ≠ "") ∧
        ∃ c, documents palette darkPalette = .ok c ∧ MergeOutcome palette darkPalette c := by
  have hp : palette.isGroup = true := by decide +kernel
  have hd : darkPalette.isGroup = true := by decide +kernel
  have hkeys : darkPalette.KeysDistinct := by decide +kernel
  have htypes : ∀ t ∈ darkPalette.statedTypes, ∃ s, t = .text s ∧ s ≠ "" := by
    have : darkPalette.statedTypes = [.text "color"] := by rfl
    simp [this]
  refine ⟨hp, hd, hkeys, htypes, ?_⟩
  cases hc : documents palette darkPalette with
  | ok c => exact ⟨c, rfl, documents_outcome hp hd hkeys htypes hc⟩
  | error e =>
    have hok : (documents palette darkPalette).toOption.isSome = true := by decide +kernel
    rw [hc] at hok
    cases hok

end Merge

end DesignTokens

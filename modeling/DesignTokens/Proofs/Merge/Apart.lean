import DesignTokens.Proofs.Merge.Entries
import DesignTokens.Proofs.Reference.Rearrangement

/-!
# Documents that do not overlap

Two groups are apart if they share no member but groups that are again apart
(`Merge.Apart`).  The walk through such documents finds no conflict (`Apart.walk_eq_nil`),
and each of them can be laid over the other.  The two results have the same members up to
their order (`Apart.child_rearranged`): a member that only one side has is taken as it is,
whichever side comes first.

The types are asked for one thing: a type that says nothing is replaced where it is laid
over another group and kept where another group is laid over it.
-/

namespace DesignTokens

namespace Merge

/-- Two groups share no member that begins with a dollar sign, and what they share otherwise
are groups, for which the same holds. -/
inductive Apart : Value → Value → Prop
  | groups {old members : Table String Value} : old.has valueKey = false →
      members.has valueKey = false →
      (∀ key, old.has key = true → members.has key = true → Conflict.isOwnKey key = false) →
      (∀ key v w, old.get? key = some v → members.get? key = some w → Apart v w) →
      Apart (.object old) (.object members)

variable {type other inherited : Option Value} {old members t u : Table String Value}
  {a b v w : Value} {key path : String}

theorem Apart.symm (h : Apart v w) : Apart w v := by
  induction h with
  | groups hold hmembers hown _ ih =>
    exact .groups hmembers hold (fun key hm ho => hown key ho hm)
      fun key v w hv hw => ih key w v hw hv

/-- It is enough to look at the keys that both groups have. -/
theorem Apart.of_keys (hold : old.has valueKey = false) (hmembers : members.has valueKey = false)
    (h : ∀ key ∈ old.keys.filter (· ∈ members.keys), Conflict.isOwnKey key = false ∧
      ∃ v w, old.get? key = some v ∧ members.get? key = some w ∧ Apart v w) :
    Apart (.object old) (.object members) := by
  have hshared : ∀ key, old.has key = true → members.has key = true →
      key ∈ old.keys.filter (· ∈ members.keys) := by
    intro key ho hm
    rw [List.mem_filter, decide_eq_true_eq]
    exact ⟨(Table.has_iff_mem_keys old key).mp ho, (Table.has_iff_mem_keys members key).mp hm⟩
  refine .groups hold hmembers (fun key ho hm => (h key (hshared key ho hm)).1) ?_
  intro key v w hv hw
  obtain ⟨-, v', w', hv', hw', hapart⟩ :=
    h key (hshared key (by simp [Table.has, hv]) (by simp [Table.has, hw]))
  cases hv.symm.trans hv'
  cases hw.symm.trans hw'
  exact hapart

theorem Apart.walk_eq_nil (h : Apart v w) (hv : v.KeysDistinct) :
    Conflict.walk w path inherited v = [] := by
  induction h generalizing path inherited with
  | @groups old members hold hmembers _ _ ih =>
    rw [Conflict.walk_of_groups hold hmembers, Conflict.walkMembers_eq_nil_iff]
    intro m hm _ w hw
    have hget := Table.get?_of_mem hv.nodup hm
    exact ih m.1 m.2 w hget hw (hv.member hget)

/-! ### Laying one over the other -/

theorem groupMember_of_new (hnone : old.get? key = none)
    (htype : key = typeKey → v.isVacant = false) : groupMember type old key v = .ok v := by
  by_cases hown : Conflict.isOwnKey key = true
  · rw [groupMember_own hown, ownMember, hnone]
    by_cases hkey : key = typeKey
    · simp [hkey, htype hkey]
    · simp [hkey]
  · exact groupMember_new (by simpa using hown) hnone

/-- What is laid over a group is what both have, and as it is what one of them has. -/
theorem rel_get?_laid {key : String}
    (ht : Laid (groupMember type old) old members t)
    (hu : Laid (groupMember other members) members old u)
    (holdType : ∀ v, old.get? typeKey = some v → v.isVacant = false)
    (htype : ∀ v, members.get? typeKey = some v → v.isVacant = false)
    (hshared : ∀ v w x y, old.get? key = some v → members.get? key = some w →
      groupMember type old key w = .ok x → groupMember other members key v = .ok y →
        x.Rearranged y) : Option.Rel Value.Rearranged (t.get? key) (u.get? key) := by
  cases hold : old.get? key with
  | none =>
    rw [hu.rest key hold]
    cases hmember : members.get? key with
    | none =>
      rw [ht.rest key hmember, hold]
      exact .none
    | some w =>
      obtain ⟨x, hx, hget⟩ := ht.member key w hmember
      rw [groupMember_of_new hold fun hk => htype w (hk ▸ hmember)] at hx
      rw [hget, ← Except.ok.inj hx]
      exact .some (.refl w)
  | some v =>
    obtain ⟨y, hy, hget⟩ := hu.member key v hold
    rw [hget]
    cases hmember : members.get? key with
    | none =>
      rw [groupMember_of_new hmember fun hk => holdType v (hk ▸ hold)] at hy
      rw [ht.rest key hmember, hold, ← Except.ok.inj hy]
      exact .some (.refl v)
    | some w =>
      obtain ⟨x, hx, hget⟩ := ht.member key w hmember
      rw [hget]
      exact .some (hshared v w x y hold hmember hx hy)

/-- One of two groups that are apart can be laid over the other. -/
theorem Apart.exists_child (h : Apart v w) (hw : w.KeysDistinct) :
    ∃ x, child inherited v w = .ok x := by
  induction h generalizing inherited with
  | @groups old members hold hmembers hown _ ih =>
    have hmember : ∀ m ∈ members,
        ∃ x, groupMember (pairType old members inherited) old m.1 m.2 = .ok x := by
      intro m hm
      have hget := Table.get?_of_mem hw.nodup hm
      by_cases hk : Conflict.isOwnKey m.1 = true
      · exact ⟨_, groupMember_own hk⟩
      · have hkey : Conflict.isOwnKey m.1 = false := by simpa using hk
        cases hget' : old.get? m.1 with
        | none => exact ⟨_, groupMember_new hkey hget'⟩
        | some v =>
          obtain ⟨x, hx⟩ := ih m.1 v m.2 hget' hget (hw.member hget)
          exact ⟨x, (groupMember_child hkey hget').trans hx⟩
    obtain ⟨t, ht⟩ := exists_overlayWith old hmember
    refine ⟨.object t, ?_⟩
    rw [child_of_groups hold hmembers, groupMembers_eq, ht]
    rfl

theorem child_of_groups_eq_ok_iff (hold : old.has valueKey = false)
    (hmembers : members.has valueKey = false) {x : Value} :
    child inherited (.object old) (.object members) = .ok x ↔
      ∃ t, overlayWith (groupMember (pairType old members inherited) old) old members = .ok t ∧
        .object t = x := by
  rw [child_of_groups hold hmembers, groupMembers_eq, Value.map_eq_ok]

/-- Laid over each other in the two orders, groups that are apart have the same members. -/
theorem Apart.child_rearranged (h : Apart v w) (hv : v.KeysDistinct) (hw : w.KeysDistinct)
    (hvtypes : ∀ t ∈ v.entryTypes, t.isVacant = false)
    (hwtypes : ∀ t ∈ w.entryTypes, t.isVacant = false) {x y : Value}
    (hx : child inherited v w = .ok x) (hy : child other w v = .ok y) : x.Rearranged y := by
  induction h generalizing inherited other x y with
  | @groups old members hold hmembers hown _ ih =>
    obtain ⟨t, ht, rfl⟩ := (child_of_groups_eq_ok_iff hold hmembers).mp hx
    obtain ⟨u, hu, rfl⟩ := (child_of_groups_eq_ok_iff hmembers hold).mp hy
    have htlaid := laid_of_overlayWith hw.nodup ht
    have hulaid := laid_of_overlayWith hv.nodup hu
    refine .of_get? (htlaid.nodup hv.nodup hw.nodup) (hulaid.nodup hw.nodup hv.nodup) fun key => ?_
    refine rel_get?_laid htlaid hulaid (fun t ht => hvtypes t (Value.mem_entryTypes_of_type ht))
      (fun t ht => hwtypes t (Value.mem_entryTypes_of_type ht)) ?_
    intro v w x y hvget hwget hx hy
    have hkey := hown key (by simp [Table.has, hvget]) (by simp [Table.has, hwget])
    rw [groupMember_child hkey hvget] at hx
    rw [groupMember_child hkey hwget] at hy
    exact ih key v w hvget hwget (hv.member hvget) (hw.member hwget)
      (fun t ht => hvtypes t (Value.mem_entryTypes_of_entry hold hkey hvget ht))
      (fun t ht => hwtypes t (Value.mem_entryTypes_of_entry hmembers hkey hwget ht)) hx hy

/-! ### Documents -/

theorem Apart.unchecked_eq (h : Apart a b) : unchecked a b = child none a b := by
  cases h with
  | groups hold hmembers =>
    rw [child_of_groups hold hmembers]
    rfl

theorem Apart.isGroup (h : Apart a b) : a.isGroup = true := by
  cases h with
  | groups hold => simp [hold]

theorem Apart.exists_documents (h : Apart a b) (ha : a.KeysDistinct) (hb : b.KeysDistinct) :
    ∃ c, documents a b = .ok c ∧ child none a b = .ok c := by
  obtain ⟨c, hc⟩ := h.exists_child hb
  exact ⟨c, documents_eq_ok_iff.mpr ⟨h.walk_eq_nil ha, h.unchecked_eq.trans hc⟩, hc⟩

/-- Documents that are apart can be merged in both orders, and the results differ in nothing
but the order of their members. -/
theorem documents_of_apart (h : Apart a b) (ha : a.KeysDistinct) (hb : b.KeysDistinct)
    (hatypes : ∀ t ∈ a.statedTypes, t.isVacant = false)
    (hbtypes : ∀ t ∈ b.statedTypes, t.isVacant = false) :
    ∃ c d, documents a b = .ok c ∧ documents b a = .ok d ∧ c.Rearranged d := by
  obtain ⟨c, hc, hchild⟩ := h.exists_documents ha hb
  obtain ⟨d, hd, hchild'⟩ := h.symm.exists_documents hb ha
  refine ⟨c, d, hc, hd, h.child_rearranged ha hb ?_ ?_ hchild hchild'⟩
  · rwa [Value.entryTypes_of_isGroup h.isGroup]
  · rwa [Value.entryTypes_of_isGroup h.symm.isGroup]

/-- A document that adds to the group of colours and states its type. -/
def accentPalette : Value :=
  .object [("colors", .object [("$description", .text "Brand"),
    ("accent", .object [("$value", .text "#f00"), ("$type", .text "color")])]),
    ("fonts", .object [("body", .object [("$value", .text "Inter")])])]

theorem palette_apart_accentPalette : Apart palette accentPalette := by
  refine .of_keys (by decide +kernel) (by decide +kernel) fun key hkey => ?_
  have hcolors : key = "colors" := List.mem_singleton.mp hkey
  subst hcolors
  refine ⟨by decide, _, _, rfl, rfl, .of_keys (by decide +kernel) (by decide +kernel) ?_⟩
  intro key hkey
  cases hkey

theorem documents_of_apart_palettes :
    Apart palette accentPalette ∧ palette.KeysDistinct ∧ accentPalette.KeysDistinct ∧
      (∀ t ∈ palette.statedTypes, t.isVacant = false) ∧
        (∀ t ∈ accentPalette.statedTypes, t.isVacant = false) ∧
          ∃ c d, documents palette accentPalette = .ok c ∧ documents accentPalette palette = .ok d ∧
            c.Rearranged d := by
  have hp : palette.KeysDistinct := by decide +kernel
  have ha : accentPalette.KeysDistinct := by decide +kernel
  have hptypes : ∀ t ∈ palette.statedTypes, t.isVacant = false := by decide +kernel
  have hatypes : ∀ t ∈ accentPalette.statedTypes, t.isVacant = false := by decide +kernel
  exact ⟨palette_apart_accentPalette, hp, ha, hptypes, hatypes,
    documents_of_apart palette_apart_accentPalette hp ha hptypes hatypes⟩

end Merge

end DesignTokens

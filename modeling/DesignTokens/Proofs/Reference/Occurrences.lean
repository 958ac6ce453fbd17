import DesignTokens.Proofs.Reference.Pieces
import DesignTokens.Proofs.Table
import DesignTokens.Proofs.Value.Structure

/-!
# Where the references of a value stand

The occurrences of a list or an object are those of its parts
(`mem_occurrences_list`, `mem_occurrences_object`).  `OnlyAliases` says that a value
has no `$ref` member and that every reference in it is an alias: this is what a
token has to come to before its aliases are replaced.  It goes down to every part
(`OnlyAliases.item`, `OnlyAliases.member`, `OnlyAliases.wellWritten`), and a value
whose `$ref` members are texts has it as soon as the scan finds neither a pointer
nor a malformed text (`onlyAliases_of_scan`).
-/

namespace DesignTokens.Value

/-! ### Occurrences of the parts -/

theorem mem_occurrences_list {items : List Value} {o : Occurrence} :
    o ∈ (Value.list items).occurrences ↔ ∃ v ∈ items, o ∈ v.occurrences := by
  rw [occurrences]
  induction items with
  | nil => simp [occurrencesOfItems]
  | cons v items ih => rw [occurrencesOfItems, List.mem_append, ih]; simp

theorem mem_occurrencesOfMembers {members : List (String × Value)} {o : Occurrence} :
    o ∈ occurrencesOfMembers members ↔
      ∃ m ∈ members, m.1 ≠ pointerKey ∧ o ∈ m.2.occurrences := by
  induction members with
  | nil => simp [occurrencesOfMembers]
  | cons m members ih =>
    obtain ⟨key, v⟩ := m
    rw [occurrencesOfMembers, List.mem_append, ih]
    by_cases hk : key = pointerKey
    · simp [hk]
    · simp [hk]

theorem mem_occurrences_object {members : List (String × Value)} {o : Occurrence} :
    o ∈ (Value.object members).occurrences ↔
      (∃ ref, pointerOf? members = some ref ∧ o = .pointer ref) ∨
        ∃ m ∈ members, m.1 ≠ pointerKey ∧ o ∈ m.2.occurrences := by
  rw [occurrences, List.mem_append, mem_occurrencesOfMembers]
  refine or_congr_left ?_
  cases pointerOf? members with
  | none => simp
  | some ref => simp

/-- A text in an object under the key of pointers is a pointer. -/
theorem pointerOf?_isSome {members : List (String × Value)}
    (htexts : ∀ m ∈ members, m.1 = pointerKey → ∃ s, m.2 = .text s)
    {m : String × Value} (hm : m ∈ members) (hkey : m.1 = pointerKey) :
    (pointerOf? members).isSome := by
  unfold pointerOf?
  cases hg : Table.get? members pointerKey with
  | none =>
    have hhas := (Table.has_iff_mem_keys members pointerKey).mpr
      (List.mem_map.mpr ⟨m, hm, hkey⟩)
    rw [Table.has, hg] at hhas
    cases hhas
  | some v =>
    obtain ⟨s, hs⟩ := htexts _ (Table.mem_of_get? hg) rfl
    rw [show v = .text s from hs]
    rfl

/-! ### Values with aliases only -/

/-- There is no pointer in a value, and what braces it holds are aliases. -/
structure OnlyAliases (v : Value) : Prop where
  noRefs : v.NoRefs
  aliases : ∀ o ∈ v.occurrences, ∃ a, o = .aliasOf a

namespace OnlyAliases

theorem item {items : List Value} (h : (Value.list items).OnlyAliases) {v : Value}
    (hv : v ∈ items) : v.OnlyAliases where
  noRefs := everyObject_list.mp h.noRefs v hv
  aliases := fun o ho => h.aliases o (mem_occurrences_list.mpr ⟨v, hv, ho⟩)

theorem member {members : List (String × Value)} (h : (Value.object members).OnlyAliases)
    {m : String × Value} (hm : m ∈ members) : m.2.OnlyAliases where
  noRefs := (everyObject_object.mp h.noRefs).2 m hm
  aliases := fun o ho => h.aliases o (mem_occurrences_object.mpr
    (Or.inr ⟨m, hm, (everyObject_object.mp h.noRefs).1 m hm, ho⟩))

theorem mem_of_member {members : List (String × Value)} (h : (Value.object members).OnlyAliases)
    {m : String × Value} (hm : m ∈ members) {o : Occurrence} (ho : o ∈ m.2.occurrences) :
    o ∈ (Value.object members).occurrences :=
  mem_occurrences_object.mpr (Or.inr ⟨m, hm, (everyObject_object.mp h.noRefs).1 m hm, ho⟩)

theorem wellWritten {s : String} (h : (Value.text s).OnlyAliases) : Occurrence.WellWritten s := by
  apply Occurrence.wellWritten_of_not_malformed
  intro m hm
  obtain ⟨a, ha⟩ := h.aliases _ hm
  cases ha

end OnlyAliases

theorem noRefs_of_scan {v : Value} (htexts : v.RefsAreTexts)
    (hnone : ∀ ref, .pointer ref ∉ v.occurrences) : v.NoRefs := by
  induction v using inductionOn with
  | list items ih =>
    have htexts := everyObject_list.mp htexts
    refine everyObject_list.mpr fun v hv => ih v hv (htexts v hv) ?_
    intro ref hr
    exact hnone ref (mem_occurrences_list.mpr ⟨v, hv, hr⟩)
  | object members ih =>
    obtain ⟨hhere, hbelow⟩ := everyObject_object.mp htexts
    have hkeys : ∀ m ∈ members, m.1 ≠ pointerKey := by
      intro m hm hkey
      obtain ⟨ref, href⟩ := Option.isSome_iff_exists.mp (pointerOf?_isSome hhere hm hkey)
      exact hnone ref (mem_occurrences_object.mpr (Or.inl ⟨ref, href, rfl⟩))
    refine everyObject_object.mpr ⟨hkeys, fun m hm => ih m hm (hbelow m hm) ?_⟩
    intro ref hr
    exact hnone ref (mem_occurrences_object.mpr (Or.inr ⟨m, hm, hkeys m hm, hr⟩))
  | _ => trivial

theorem mem_filterMap_kind {kind? : Occurrence → Option String} {kind : String → Occurrence}
    (h : ∀ o s, kind? o = some s ↔ o = kind s) {found : List Occurrence} {s : String} :
    s ∈ found.filterMap kind? ↔ kind s ∈ found := by
  rw [List.mem_filterMap]
  constructor
  · rintro ⟨o, ho, he⟩
    exact (h o s).mp he ▸ ho
  · exact fun hk => ⟨_, hk, (h _ s).mpr rfl⟩

theorem mem_aliases_iff {v : Value} {a : String} :
    a ∈ (Scan.of v).aliases ↔ .aliasOf a ∈ v.occurrences := by
  show a ∈ (v.occurrences.filterMap Occurrence.aliasPath?).eraseDups ↔ _
  rw [List.mem_eraseDups]
  apply mem_filterMap_kind
  intro o s
  cases o <;> simp [Occurrence.aliasPath?]

theorem mem_pointers_iff {v : Value} {ref : String} :
    ref ∈ (Scan.of v).pointers ↔ .pointer ref ∈ v.occurrences := by
  show ref ∈ (v.occurrences.filterMap Occurrence.pointer?).eraseDups ↔ _
  rw [List.mem_eraseDups]
  apply mem_filterMap_kind
  intro o s
  cases o <;> simp [Occurrence.pointer?]

theorem NoRefs.pointer_not_mem {v : Value} (h : v.NoRefs) (ref : String) :
    .pointer ref ∉ v.occurrences := by
  induction v using inductionOn with
  | text s => exact Occurrence.pointer_not_mem_ofText s ref
  | list items ih =>
    rw [mem_occurrences_list]
    rintro ⟨v, hv, ho⟩
    exact ih v hv (everyObject_list.mp h v hv) ho
  | object members ih =>
    obtain ⟨hhere, hbelow⟩ := everyObject_object.mp h
    rw [mem_occurrences_object]
    rintro (⟨ref', href, -⟩ | ⟨m, hm, -, ho⟩)
    · obtain ⟨v, hget, -⟩ := Option.bind_eq_some_iff.mp href
      exact hhere _ (Table.mem_of_get? hget) rfl
    · exact ih m hm (hbelow m hm) ho
  | _ => exact List.not_mem_nil

theorem NoRefs.scan_pointers {v : Value} (h : v.NoRefs) : (Scan.of v).pointers = [] :=
  List.eq_nil_iff_forall_not_mem.mpr fun ref href =>
    h.pointer_not_mem ref (mem_pointers_iff.mp href)

theorem mem_malformed_iff {v : Value} {s : String} :
    s ∈ (Scan.of v).malformed ↔ .malformed s ∈ v.occurrences := by
  apply mem_filterMap_kind
  intro o s
  cases o <;> simp [Occurrence.malformed?]

theorem onlyAliases_of_scan {v : Value} (htexts : v.RefsAreTexts)
    (hpointers : (Scan.of v).pointers = []) (hmalformed : (Scan.of v).malformed = []) :
    v.OnlyAliases := by
  have hp : ∀ ref, .pointer ref ∉ v.occurrences := fun ref h =>
    List.not_mem_nil (hpointers ▸ mem_pointers_iff.mpr h)
  have hm : ∀ s, .malformed s ∉ v.occurrences := fun s h =>
    List.not_mem_nil (hmalformed ▸ mem_malformed_iff.mpr h)
  refine ⟨noRefs_of_scan htexts hp, ?_⟩
  intro o ho
  cases o with
  | aliasOf path => exact ⟨path, rfl⟩
  | pointer ref => exact absurd ho (hp ref)
  | malformed s => exact absurd ho (hm s)

theorem occurrences_eq_nil_of_scan {v : Value} (haliases : (Scan.of v).aliases = [])
    (hpointers : (Scan.of v).pointers = []) (hmalformed : (Scan.of v).malformed = []) :
    v.occurrences = [] := by
  refine List.eq_nil_iff_forall_not_mem.mpr fun o ho => ?_
  cases o with
  | aliasOf a => exact List.not_mem_nil (haliases ▸ mem_aliases_iff.mpr ho)
  | pointer ref => exact List.not_mem_nil (hpointers ▸ mem_pointers_iff.mpr ho)
  | malformed s => exact List.not_mem_nil (hmalformed ▸ mem_malformed_iff.mpr ho)

theorem scan_eq_empty {v : Value} (h : v.occurrences = []) : Scan.of v = ⟨[], [], []⟩ := by
  unfold Scan.of
  rw [h]
  rfl

end DesignTokens.Value

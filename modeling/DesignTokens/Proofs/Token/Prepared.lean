import DesignTokens.Proofs.Token.Paths
import DesignTokens.Proofs.Token.Places

/-!
# Trees that are ready for resolution

`Token.Scanned` says that a token has the references of its value, and
`Token.Tracked` that it knows all references of its value, which it does where every
`$ref` member is a text.  `Group.Placed` says that a tree has distinct keys and paths
and that each token has the path of its place, and `Group.Prepared` that also the
tokens are tracked.  Built and assembled trees are prepared; resolution relies on
nothing else.

In such a tree different paths name different places (`Group.placeOf_injective`),
what an alias names has the path of the alias (`Placed.path_of_findToken`), and a
token that some other path leads to cannot be found by its own
(`Placed.findToken?_path_eq_none`).
-/

namespace DesignTokens

/-- A token with the references that the scan of its value finds; if it has a result, that makes
none. -/
structure Token.Scanned (t : Token) : Prop where
  aliases : ∀ a ∈ (Scan.of t.value).aliases, a ∈ t.references
  pointers : t.pointers = (Scan.of t.value).pointers
  malformed : ∀ s ∈ (Scan.of t.value).malformed, s ∈ t.malformed
  hasSegments : ∀ a ∈ t.references, Alias.HasSegments a
  free : t.resolved = true → t.resolvedValue.occurrences = []

/-- Without pointers and malformed texts the scan finds nothing but aliases. -/
theorem Token.Scanned.exists_aliasOf {t : Token} (h : t.Scanned) (hpointers : t.pointers = [])
    (hmalformed : t.malformed = []) {o : Occurrence} (ho : o ∈ t.value.occurrences) :
    ∃ a ∈ t.references, o = .aliasOf a := by
  cases o with
  | aliasOf a => exact ⟨a, h.aliases a (Value.mem_aliases_iff.mpr ho), rfl⟩
  | pointer ref =>
    have hm := Value.mem_pointers_iff.mpr ho
    rw [← h.pointers, hpointers] at hm
    exact absurd hm List.not_mem_nil
  | malformed s =>
    have hm := h.malformed s (Value.mem_malformed_iff.mpr ho)
    rw [hmalformed] at hm
    exact absurd hm List.not_mem_nil

/-- A token that knows the references of its value. -/
structure Token.Tracked (t : Token) : Prop where
  refsAreTexts : t.value.RefsAreTexts
  aliases : ∀ a ∈ (Scan.of t.value).aliases, a ∈ t.references
  pointers : t.pointers = (Scan.of t.value).pointers
  malformed : ∀ s ∈ (Scan.of t.value).malformed, s ∈ t.malformed
  hasSegments : ∀ a ∈ t.references, Alias.HasSegments a
  resolved_iff : t.resolved = true ↔ t.references = [] ∧ t.pointers = [] ∧ t.malformed = []
  resolvedValue : t.resolved = true → t.resolvedValue = t.value

namespace Token.Tracked

variable {t : Token}

theorem onlyAliases (h : t.Tracked) (hpointers : t.pointers = []) (hmalformed : t.malformed = []) :
    t.value.OnlyAliases := by
  refine Value.onlyAliases_of_scan h.refsAreTexts (h.pointers ▸ hpointers) ?_
  apply List.eq_nil_iff_forall_not_mem.mpr
  intro s hs
  exact List.not_mem_nil (hmalformed ▸ h.malformed s hs)

theorem mem_references (h : t.Tracked) {a : String} (ha : .aliasOf a ∈ t.value.occurrences) :
    a ∈ t.references :=
  h.aliases a (Value.mem_aliases_iff.mpr ha)

theorem occurrences_eq_nil (h : t.Tracked) (hresolved : t.resolved = true) :
    t.value.occurrences = [] := by
  obtain ⟨hreferences, hpointers, hmalformed⟩ := h.resolved_iff.mp hresolved
  apply List.eq_nil_iff_forall_not_mem.mpr
  intro o ho
  obtain ⟨a, rfl⟩ := (h.onlyAliases hpointers hmalformed).aliases o ho
  exact List.not_mem_nil (hreferences ▸ h.mem_references ho)

theorem eq_of_resolved (h : t.Tracked) (hresolved : t.resolved = true) :
    t = { t with resolved := true, resolvedValue := t.value } := by
  have hvalue := h.resolvedValue hresolved
  cases t
  dsimp only at hresolved hvalue
  rw [hresolved, hvalue]

theorem eq_of_not_resolved (hresolved : t.resolved = false) :
    t = { t with resolved := false } := by
  cases t
  dsimp only at hresolved
  rw [hresolved]

end Token.Tracked

namespace Group

/-- A tree whose tokens have the paths of their places, and each its own. -/
structure Placed (g : Group) : Prop where
  label_path : g.label.path = ""
  keysDistinct : g.KeysDistinct
  path_eq : ∀ place t, g.tokenAt? place = some t → t.path = pathAt place
  distinct : ∀ place other t u, g.tokenAt? place = some t → g.tokenAt? other = some u →
    t.path = u.path → place = other

/-- A tree that is ready for resolution. -/
structure Prepared (g : Group) : Prop where
  label_path : g.label.path = ""
  keysDistinct : g.KeysDistinct
  path_eq : ∀ place t, g.tokenAt? place = some t → t.path = pathAt place
  distinct : ∀ place other t u, g.tokenAt? place = some t → g.tokenAt? other = some u →
    t.path = u.path → place = other
  tracked : ∀ place t, g.tokenAt? place = some t → t.Tracked

variable {g : Group}

/-! ### Places of paths -/

theorem placeOf_empty (g : Group) : g.placeOf "" = [] := if_pos (Or.inl rfl)

theorem placeOf_of_ne (hlabel : g.label.path = "") {path : String} (h : path ≠ "") :
    g.placeOf path = (Text.splitOn '.' path.toList).map String.ofList := by
  unfold placeOf
  rw [hlabel, if_neg (not_or.mpr ⟨h, h⟩), if_pos rfl]
  rfl

theorem placeOf_injective (hlabel : g.label.path = "") {p q : String}
    (h : g.placeOf p = g.placeOf q) : p = q := by
  have hnil : ∀ r : String, (Text.splitOn '.' r.toList).map String.ofList ≠ [] := fun r he =>
    Text.splitOn_ne_nil '.' _ (List.map_eq_nil_iff.mp he)
  by_cases hp : p = ""
  · by_cases hq : q = ""
    · rw [hp, hq]
    · rw [hp, placeOf_empty, placeOf_of_ne hlabel hq] at h
      exact absurd h.symm (hnil q)
  · by_cases hq : q = ""
    · rw [hq, placeOf_empty, placeOf_of_ne hlabel hp] at h
      exact absurd h (hnil p)
    · rw [placeOf_of_ne hlabel hp, placeOf_of_ne hlabel hq] at h
      have hsplit := List.map_injective_iff.mpr (fun _ _ => String.ofList_inj.mp) h
      rw [← String.toList_inj, ← Text.joinOn_splitOn '.' p.toList, hsplit, Text.joinOn_splitOn]

/-- Keys that are not empty and hold no dot lead back to their place. -/
theorem placeOf_pathAt (hlabel : g.label.path = "") {key : String} {place : Place}
    (h : ∀ k ∈ key :: place, k ≠ "" ∧ '.' ∉ k.toList) :
    g.placeOf (pathAt (key :: place)) = key :: place := by
  have hkey := (h key List.mem_cons_self).1
  have hdots : ∀ part ∈ (key :: place).map String.toList, '.' ∉ part := by
    intro part hpart
    obtain ⟨k, hk, rfl⟩ := List.mem_map.mp hpart
    exact (h k hk).2
  have hsplit : Text.splitOn '.' (pathAt (key :: place)).toList =
      (key :: place).map String.toList := by
    rw [pathAt_cons_of_ne hkey]
    exact Text.splitOn_joinOn '.' (List.cons_ne_nil _ _) hdots
  have hne : pathAt (key :: place) ≠ "" := by
    intro he
    rw [he] at hsplit
    exact hkey (String.toList_inj.mp (List.cons.inj hsplit).1.symm)
  rw [placeOf_of_ne hlabel hne, hsplit, List.map_map]
  exact (List.map_congr_left fun k _ => String.ofList_toList).trans (List.map_id _)

theorem tokenAt?_nil (g : Group) : g.tokenAt? [] = none := rfl

theorem ne_empty_of_findToken {path : String} {t : Token} (h : g.findToken? path = some t) :
    path ≠ "" := by
  rintro rfl
  have hat : g.tokenAt? (g.placeOf "") = some t := h
  rw [placeOf_empty, tokenAt?_nil] at hat
  cases hat

namespace Placed

theorem eq_of_path_eq (h : g.Placed) {place other : Place} {t u : Token}
    (ht : g.tokenAt? place = some t) (hu : g.tokenAt? other = some u) (hp : t.path = u.path) :
    t = u := by
  rw [h.distinct place other t u ht hu hp, hu] at ht
  exact (Option.some.inj ht).symm

theorem pathAt_placeOf (h : g.Placed) {path : String} (hne : path ≠ "")
    (hdot : path.toList.head? ≠ some '.') : pathAt (g.placeOf path) = path := by
  rw [placeOf_of_ne h.label_path hne]
  exact pathAt_splitOn hdot

theorem path_of_findToken (h : g.Placed) {path : String} {t : Token}
    (hpath : Alias.HasSegments path) (ht : g.findToken? path = some t) : t.path = path := by
  rw [h.path_eq _ t ht]
  exact h.pathAt_placeOf hpath.ne_empty hpath.head?

/-- A token to which another path leads cannot be found by its own path. -/
theorem findToken?_path_eq_none (h : g.Placed) {path : String} {t : Token}
    (ht : g.findToken? path = some t) (hne : t.path ≠ path) : g.findToken? t.path = none := by
  cases hown : g.findToken? t.path with
  | none => rfl
  | some u =>
    have hu := ne_empty_of_findToken hown
    have hdots : ∀ key ∈ g.placeOf path, '.' ∉ key.toList := by
      rw [placeOf_of_ne h.label_path (ne_empty_of_findToken ht)]
      intro key hkey
      obtain ⟨part, hpart, rfl⟩ := List.mem_map.mp hkey
      rw [String.toList_ofList]
      exact Text.not_mem_of_mem_splitOn hpart
    have hdot := head?_pathAt hdots
    rw [← h.path_eq _ t ht] at hdot
    have hpath : t.path = u.path := by
      rw [h.path_eq _ u hown, h.pathAt_placeOf hu hdot]
    have hplace := h.distinct _ _ t u ht hown hpath
    exact absurd (placeOf_injective h.label_path hplace).symm hne

/-- A tree with the paths of another one at its places. -/
theorem of_paths {h : Group} (hg : g.Placed) (hlabel : h.label = g.label)
    (hkeys : h.KeysDistinct)
    (hpaths : ∀ place, (h.tokenAt? place).map Token.path = (g.tokenAt? place).map Token.path) :
    h.Placed := by
  have hat : ∀ place t, h.tokenAt? place = some t →
      ∃ u, g.tokenAt? place = some u ∧ u.path = t.path := by
    intro place t ht
    have hpath := hpaths place
    rw [ht] at hpath
    obtain ⟨u, hu, he⟩ := Option.map_eq_some_iff.mp hpath.symm
    exact ⟨u, hu, he⟩
  refine ⟨hlabel ▸ hg.label_path, hkeys, ?_, ?_⟩
  · intro place t ht
    obtain ⟨u, hu, he⟩ := hat place t ht
    rw [← he, hg.path_eq place u hu]
  · intro place other t u ht hu hp
    obtain ⟨t', ht', he⟩ := hat place t ht
    obtain ⟨u', hu', he'⟩ := hat other u hu
    exact hg.distinct place other t' u' ht' hu' (he.trans (hp.trans he'.symm))

end Placed

theorem Prepared.placed (h : g.Prepared) : g.Placed :=
  ⟨h.label_path, h.keysDistinct, h.path_eq, h.distinct⟩

end Group

end DesignTokens

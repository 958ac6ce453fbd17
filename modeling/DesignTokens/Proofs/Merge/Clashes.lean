import DesignTokens.Proofs.Merge.Walk
import DesignTokens.Proofs.Text.Joining
import DesignTokens.Proofs.Token.Paths

/-!
# Where a token meets a group

The conflicts of a token and a group are those at the places of `Clashes`, none is missed and
none reported twice, and no conflict lies below another one, as nothing is entered where a
token stands.  Which side comes first does not matter for the places (`clashes_between`).
-/

namespace DesignTokens

namespace Value

/-- The keys of the entries are not empty and hold no dot. -/
def PlainKeys (v : Value) : Prop :=
  ∀ place ∈ v.entryPlaces, ∀ key ∈ place, key ≠ "" ∧ '.' ∉ key.toList

instance (v : Value) : Decidable v.PlainKeys :=
  inferInstanceAs (Decidable (∀ place ∈ v.entryPlaces, ∀ key ∈ place, key ≠ "" ∧ '.' ∉ key.toList))

end Value

namespace Conflict

variable {outer : Option Value} {a b : Value} {path key : String} {place front : Place}
  {c : Conflict}

/-! ### The paths of the conflicts -/

theorem pathAt_eq_joinWith (h : key ≠ "") (place : Place) :
    pathAt (key :: place) = Text.joinWith "." (key :: place) := by
  have hseparator : ".".toList = ['.'] := by decide
  rw [← String.toList_inj, pathAt_cons_of_ne h, Text.toList_joinWith hseparator, List.map_cons]

theorem displayPath_pathAt (h : key ≠ "") (place : Place) :
    displayPath (pathAt (key :: place)) = Text.joinWith "." (key :: place) := by
  have hne : pathAt (key :: place) ≠ "" := by
    intro he
    have hlist := congrArg String.toList he
    rw [pathAt_cons_of_ne h] at hlist
    cases place with
    | nil => exact h (String.toList_inj.mp hlist)
    | cons next place => simp [Text.joinOn] at hlist
  rw [displayPath, if_neg hne, pathAt_eq_joinWith h]

theorem eq_of_joinWith {front place : Place} (hne : front ≠ []) (hne' : place ≠ [])
    (hfront : ∀ key ∈ front, '.' ∉ key.toList) (hplace : ∀ key ∈ place, '.' ∉ key.toList)
    (h : Text.joinWith "." front = Text.joinWith "." place) : front = place := by
  have hseparator : ".".toList = ['.'] := by decide
  have hsplit := congrArg (Text.splitOn '.' ·.toList) h
  simp only [Text.toList_joinWith hseparator] at hsplit
  rw [Text.splitOn_joinOn '.' (by simpa using hne) (by simpa using hfront),
    Text.splitOn_joinOn '.' (by simpa using hne') (by simpa using hplace)] at hsplit
  exact Text.map_toList_injective hsplit

/-- A path goes on below another one only if its place does. -/
theorem prefix_of_joinWith {front place : Place} (hne : front ≠ []) (hne' : place ≠ [])
    (hfront : ∀ key ∈ front, '.' ∉ key.toList) (hplace : ∀ key ∈ place, '.' ∉ key.toList)
    (h : (Text.joinWith "." front).toList ++ ['.'] <+: (Text.joinWith "." place).toList) :
    front <+: place ∧ front ≠ place := by
  have hseparator : ".".toList = ['.'] := by decide
  rw [Text.toList_joinWith hseparator, Text.toList_joinWith hseparator] at h
  have hparts := Text.prefix_of_joinOn (by simpa using hne) (by simpa using hfront)
    (by simpa using hne') (by simpa using hplace) h
  obtain ⟨other, hother, he⟩ := List.prefix_map_iff.mp hparts.1
  rw [Text.map_toList_injective he]
  refine ⟨hother, fun hsame => hparts.2 ?_⟩
  rw [he, hsame]

/-- Where two groups are walked through, each conflict lies below them, and its path is that
of its place. -/
theorem path_of_conflictAt (ha : a.isGroup = true) (hb : b.isGroup = true) (hplain : a.PlainKeys)
    (hplace : place ∈ a.entryPlaces) (h : conflictAt "" outer a b place = some c) :
    place ≠ [] ∧ c.path = Text.joinWith "." place := by
  cases place with
  | nil => cases (conflictAt_of_groups ha hb).symm.trans h
  | cons key rest =>
    obtain ⟨-, -, -, -, -, hpath⟩ := exists_of_conflictAt h
    refine ⟨List.cons_ne_nil _ _, hpath.trans ?_⟩
    exact displayPath_pathAt (hplain _ hplace key List.mem_cons_self).1 rest

theorem conflictAt_below (h : conflictAt path outer a b front = some c)
    (hfront : front <+: place) (hne : front ≠ place) : conflictAt path outer a b place = none := by
  obtain ⟨old, members, hold, hmembers, hvalue, -⟩ := exists_of_conflictAt h
  rw [Option.eq_none_iff_forall_ne_some]
  intro d hd
  obtain ⟨_, _, hleft, hright, -⟩ := exists_of_conflictAt hd
  obtain ⟨above, habove, hgroup⟩ := Value.exists_groupAt_above hleft hfront hne
  obtain ⟨above', habove', hgroup'⟩ := Value.exists_groupAt_above hright hfront hne
  cases hold.symm.trans habove
  cases hmembers.symm.trans habove'
  simp [hgroup, hgroup'] at hvalue

/-- The places of the clashes are the same in the other order. -/
theorem exists_clash_symm (hakeys : a.KeysDistinct) (hbkeys : b.KeysDistinct) {text : String}
    (h : ∃ c ∈ between a b, c.isClash = true ∧ c.path = text) :
    ∃ c ∈ between b a, c.isClash = true ∧ c.path = text := by
  obtain ⟨c, hc, hclash, rfl⟩ := h
  rw [between, walk_eq hakeys] at hc
  obtain ⟨place, -, hplace⟩ := List.mem_filterMap.mp hc
  have hat : clashAt "" a b place = some c := by
    rw [← filter_isClash_conflictAt "" none, hplace, Option.filter_some, if_pos hclash]
  obtain ⟨hmeet, v, w, hv, hw, rfl⟩ := clashAt_eq_some_iff.mp hat
  have hother : clashAt "" b a place = some _ :=
    clashAt_eq_some_iff.mpr ⟨hmeet.symm, w, v, hw, hv, rfl⟩
  refine ⟨⟨displayPath (place.foldl joinPath ""), .tokenAndGroup w.isToken, w, v⟩, ?_, rfl, rfl⟩
  rw [between, walk_eq hbkeys]
  refine List.mem_filterMap.mpr ⟨place, (Value.mem_entryPlaces hbkeys).mpr ⟨w, hw⟩, ?_⟩
  rw [conflictAt, hother]
  rfl

theorem nodup_paths_between (ha : a.isGroup = true) (hb : b.isGroup = true)
    (hakeys : a.KeysDistinct) (hplain : a.PlainKeys) : ((between a b).map Conflict.path).Nodup := by
  rw [between, walk_eq hakeys, List.Nodup, List.pairwise_map, List.pairwise_filterMap]
  refine (Value.nodup_entryPlaces hakeys).imp_of_mem fun {front place} hfront hplace hne => ?_
  intro c hc d hd he
  obtain ⟨hnil, hcpath⟩ := path_of_conflictAt ha hb hplain hfront hc
  obtain ⟨hnil', hdpath⟩ := path_of_conflictAt ha hb hplain hplace hd
  rw [hcpath, hdpath] at he
  exact hne (eq_of_joinWith hnil hnil' (fun key hkey => (hplain _ hfront key hkey).2)
    (fun key hkey => (hplain _ hplace key hkey).2) he)

/-- No conflict is reported below another one. -/
theorem not_below_between (ha : a.isGroup = true) (hb : b.isGroup = true)
    (hakeys : a.KeysDistinct) (hplain : a.PlainKeys) {d : Conflict} (hc : c ∈ between a b)
    (hd : d ∈ between a b) : ¬c.path.toList ++ ['.'] <+: d.path.toList := by
  rw [between, walk_eq hakeys] at hc hd
  obtain ⟨front, hfront, hcat⟩ := List.mem_filterMap.mp hc
  obtain ⟨place, hplace, hdat⟩ := List.mem_filterMap.mp hd
  obtain ⟨hnil, hcpath⟩ := path_of_conflictAt ha hb hplain hfront hcat
  obtain ⟨hnil', hdpath⟩ := path_of_conflictAt ha hb hplain hplace hdat
  rw [hcpath, hdpath]
  intro hbelow
  obtain ⟨hsub, hne⟩ := prefix_of_joinWith hnil hnil'
    (fun key hkey => (hplain _ hfront key hkey).2) (fun key hkey => (hplain _ hplace key hkey).2)
    hbelow
  cases (conflictAt_below hcat hsub hne).symm.trans hdat

/-- What a clash of two groups looks like. -/
theorem clashAt_of_groups (ha : a.isGroup = true) (hb : b.isGroup = true)
    (hakeys : a.KeysDistinct) (hplain : a.PlainKeys) :
    clashAt "" a b place = some c ↔
      Clashes a b place ∧ ∃ v w, a.entryAt? place = some v ∧ b.entryAt? place = some w ∧
        c = ⟨Text.joinWith "." place, .tokenAndGroup v.isToken, v, w⟩ := by
  have hpath : ∀ v w, a.entryAt? place = some v → b.entryAt? place = some w →
      Clashes a b place → displayPath (place.foldl joinPath "") = Text.joinWith "." place := by
    intro v w hv hw hclash
    have hat : clashAt "" a b place = some _ :=
      clashAt_eq_some_iff.mpr ⟨hclash, v, w, hv, hw, rfl⟩
    have hconflict : conflictAt "" none a b place = some _ :=
      Option.or_eq_some_iff.mpr (Or.inl hat)
    exact (path_of_conflictAt ha hb hplain ((Value.mem_entryPlaces hakeys).mpr ⟨v, hv⟩) hconflict).2
  rw [clashAt_eq_some_iff]
  refine and_congr_right fun hclash => exists_congr fun v => exists_congr fun w => ?_
  refine and_congr_right fun hv => and_congr_right fun hw => ?_
  rw [hpath v w hv hw hclash]

def flatPalette : Value :=
  .object [("size", .object [("$value", .int 4), ("$type", .text "dimension")]),
    ("theme", .object [("colors", .object [("$value", .text "#111"), ("base", .object [])])])]

def groupedPalette : Value :=
  .object [("theme", .object [("colors", .object [("base", .object [("$value", .text "#222")])])]),
    ("size", .object [("$value", .int 4), ("$type", .text "number")])]

end Conflict

end DesignTokens

import DesignTokens.Proofs.FilePath
import DesignTokens.Proofs.Manifest.Collected
import DesignTokens.Proofs.Text.Joining
import DesignTokens.Reading.Shelf

/-!
# Reading the tokens of a resolver manifest

The tokens that a manifest holds itself are laid in front of the files, by the paths that were made
up for them.  A made-up path is a front, an index and a fixed end, and the front and the index are
found again in it (`madeUpPath_inj`).  The fronts, though, are a name and a value with a dash
between them, and they are not checked against each other; the reader besides takes two spellings of
a path for one.  Tokens are read back where no other tokens have their path; where two sets with
different tokens share one, those of one set are lost (`inline_read`). -/

namespace DesignTokens.DtcgResolver

variable {front : String}

/-! ### The sets of a place -/

section

variable {items : List Value} {index : Nat} {raw tokens : Value}

theorem mem_inlinedFrom_iff {p : String × Value} :
    p ∈ inlinedFrom front 0 items ↔ ∃ index raw, items[index]? = some raw ∧
      inlineTokens? raw = some p.2 ∧ p.1 = madeUpPath front index := by
  unfold inlinedFrom
  rw [List.mem_filterMap]
  constructor
  · rintro ⟨⟨raw, index⟩, hmem, hp⟩
    obtain ⟨tokens, htokens, rfl⟩ := Option.map_eq_some_iff.mp hp
    exact ⟨index, raw, List.mk_mem_zipIdx_iff_getElem?.mp hmem, htokens, rfl⟩
  · rintro ⟨index, raw, hitem, htokens, hpath⟩
    refine ⟨(raw, index), List.mk_mem_zipIdx_iff_getElem?.mpr hitem, ?_⟩
    rw [htokens, ← hpath]
    rfl

/-- A set that holds its tokens has the made-up path with its index. -/
theorem getElem?_filesFrom (hitem : items[index]? = some raw)
    (htokens : inlineTokens? raw = some tokens) :
    (filesFrom front 0 items)[index]? = some (madeUpPath front index) := by
  unfold filesFrom
  rw [List.getElem?_map, List.getElem?_zipIdx, hitem, Nat.zero_add]
  cases raw with
  | object members =>
    cases hsource : source? members with
    | some file =>
      change (if (source? members).isSome then none else _) = some tokens at htokens
      rw [hsource] at htokens
      cases htokens
    | none =>
      show some ((source? members).getD (madeUpPath front index)) = _
      rw [hsource]
      rfl
  | _ => cases htokens

end

/-! ### Made-up paths -/

theorem not_mem_toList_toString {c : Char} (hc : c.isDigit = false) (n : Nat) :
    c ∉ (toString n).toList := by
  rw [Nat.toString_eq_repr, Nat.toList_repr]
  intro hmem
  rw [Nat.isDigit_of_mem_toDigits (by decide) (by decide) hmem] at hc
  cases hc

theorem eq_of_toList_toString {i j : Nat} (h : (toString i).toList = (toString j).toList) :
    i = j := by
  rw [Nat.toString_eq_repr, Nat.toString_eq_repr, Nat.toList_repr, Nat.toList_repr] at h
  have hread := congrArg (Nat.ofDigitChars 10 · 0) h
  simpa [Nat.ofDigitChars_toDigits] using hread

theorem toList_madeUpPath (front : String) (index : Nat) :
    (madeUpPath front index).toList =
      front.toList ++ '-' :: (toString index).toList ++ inlineSuffix.toList := by
  unfold madeUpPath
  simp only [String.toList_append, List.append_assoc]
  rfl

/-- What a made-up path begins with and its index are found again in it. -/
theorem madeUpPath_inj {other : String} {i j : Nat} (h : madeUpPath front i = madeUpPath other j) :
    front = other ∧ i = j := by
  have hchars := congrArg String.toList h
  rw [toList_madeUpPath, toList_madeUpPath] at hchars
  -- a longer front would need a dash among the digits of the other index
  rcases Text.append_cons_eq_append_cons (List.append_cancel_right hchars) with
    ⟨hfront, hindex⟩ | ⟨z, -, hdigits⟩ | ⟨z, -, hdigits⟩
  · exact ⟨String.toList_inj.mp hfront, eq_of_toList_toString hindex⟩
  · exact absurd (hdigits ▸ List.mem_append_right z List.mem_cons_self)
      (not_mem_toList_toString (by decide) i)
  · exact absurd (hdigits ▸ List.mem_append_right z List.mem_cons_self)
      (not_mem_toList_toString (by decide) j)

/-- A made-up path is its own key where nothing in front of it can be taken for a separator. -/
theorem fileKey_madeUpPath (index : Nat) (hslash : '/' ∉ front.toList)
    (hback : '\\' ∉ front.toList) :
    FilePath.fileKey (madeUpPath front index) none = madeUpPath front index := by
  have hmem : ∀ c : Char, c.isDigit = false → c ≠ '-' → c ∉ inlineSuffix.toList →
      c ∉ front.toList → c ∉ (madeUpPath front index).toList := by
    intro c hdigit hdash hsuffix hfronts
    rw [toList_madeUpPath, List.mem_append, List.mem_append, List.mem_cons]
    rintro ((hfront | hc | hindex) | hend)
    · exact hfronts hfront
    · exact hdash hc
    · exact not_mem_toList_toString hdigit index hindex
    · exact hsuffix hend
  have hlong : 3 ≤ (madeUpPath front index).length := by
    rw [← String.length_toList, toList_madeUpPath, List.length_append]
    have : inlineSuffix.toList.length = 13 := rfl
    omega
  refine FilePath.fileKey_of_plain (hmem _ rfl (by decide) (by decide) hslash)
    (hmem _ rfl (by decide) (by decide) hback) ?_ ?_ ?_
  all_goals
    intro h
    rw [h] at hlong
    exact absurd hlong (by decide)

/-! ### Reading the tokens back -/

/-- Whether the tokens are what is read at a path, whatever is behind them. -/
def ReadsBack (inline : Table String Value) (path : String) (tokens : Value) : Prop :=
  ∀ (σ : Type) (fallback : DocumentReader σ) (state : σ),
    ((fallback.behind inline) path).run.run state = (.ok tokens, state)

/-- Whether a path is of these tokens only: all tokens whose path has the same key are the same. -/
def Alone (pairs : List (String × Value)) (path : String) (tokens : Value) : Prop :=
  ∀ p ∈ pairs, FilePath.fileKey p.1 none = FilePath.fileKey path none → p.2 = tokens

section

variable {pairs : List (String × Value)} {path : String} {tokens : Value}

theorem run_behind {σ : Type} (fallback : DocumentReader σ) (inline : Table String Value)
    (path : String) (state : σ) :
    ((fallback.behind inline) path).run.run state =
      match (Shelf.ofDocuments inline).document? path with
      | some v => (.ok v, state)
      | none => (fallback path).run.run state := by
  unfold DocumentReader.behind
  cases (Shelf.ofDocuments inline).document? path with
  | some v => rfl
  | none => rfl

theorem readsBack_iff {inline : Table String Value} :
    ReadsBack inline path tokens ↔ (Shelf.ofDocuments inline).document? path = some tokens := by
  constructor
  · intro h
    -- a reader behind the tokens that finds nothing cannot have given them
    have hread := h Unit (fun path => throw (Shelf.missing path)) ()
    rw [run_behind] at hread
    cases hdocument : (Shelf.ofDocuments inline).document? path with
    | some v =>
      rw [hdocument] at hread
      cases hread
      rfl
    | none =>
      rw [hdocument] at hread
      cases hread
  · intro h σ fallback state
    rw [run_behind, h]

theorem ReadsBack.unique {inline : Table String Value} {other : String} {tokens' : Value}
    (h : ReadsBack inline path tokens) (h' : ReadsBack inline other tokens')
    (hkey : FilePath.fileKey path none = FilePath.fileKey other none) : tokens = tokens' := by
  rw [readsBack_iff, Shelf.document?] at h h'
  rw [← hkey, h] at h'
  exact Option.some.inj h'

theorem readsBack_of_alone (hmem : (path, tokens) ∈ pairs) (halone : Alone pairs path tokens) :
    ReadsBack (Table.ofPairs pairs) path tokens := by
  have hinline : (Table.ofPairs pairs).get? path = some tokens :=
    Table.get?_ofPairs (fun w hw => halone (path, w) hw rfl) hmem
  have hkeys : (Merge.overlay [] pairs).keys.Nodup := Merge.nodup_keys_overlay List.nodup_nil
  refine readsBack_iff.mpr (Table.get?_ofPairs (fun w hw => ?_) ?_)
  · obtain ⟨p, hp, he⟩ := List.mem_map.mp hw
    obtain ⟨hkey, rfl⟩ := Prod.mk.inj he
    exact halone p (Table.mem_of_get?_ofPairs (Table.get?_of_mem hkeys hp)) hkey
  · exact List.mem_map.mpr ⟨(path, tokens), Table.mem_of_get? hinline, rfl⟩

end

/-- Whether a set holds some tokens itself: the set with an index among those of a place. -/
def Holds (data : Table String Value) (place : Place) (index : Nat) (tokens : Value) : Prop :=
  ∃ items raw, (place, items) ∈ sections data ∧ items[index]? = some raw ∧
    inlineTokens? raw = some tokens

/-- Whether all tokens that the sets hold are read back. -/
def ReadsAll (data inline : Table String Value) : Prop :=
  ∀ place index tokens, Holds data place index tokens →
    ReadsBack inline (madeUpPath place.front index) tokens

/-- The fronts of the made-up paths differ, and none has a separator in it. -/
structure DistinctFronts (data : Table String Value) : Prop where
  nodup : ((sections data).map fun p => p.1.front).Nodup
  slashless : ∀ p ∈ sections data, '/' ∉ p.1.front.toList ∧ '\\' ∉ p.1.front.toList

section

variable {data : Table String Value} {source : Option String} {read : ParsedManifest}

/-- The tokens that are collected are those that the sets hold, by the paths made up for them. -/
theorem mem_inlinedAt_iff {p : String × Value} :
    p ∈ inlinedAt (sections data) ↔
      ∃ place index, Holds data place index p.2 ∧ p.1 = madeUpPath place.front index := by
  unfold inlinedAt
  rw [List.mem_flatMap]
  constructor
  · rintro ⟨⟨place, items⟩, hplace, hp⟩
    obtain ⟨index, raw, hitem, htokens, hpath⟩ := mem_inlinedFrom_iff.mp hp
    exact ⟨place, index, ⟨items, raw, hplace, hitem, htokens⟩, hpath⟩
  · rintro ⟨place, index, ⟨items, raw, hplace, hitem, htokens⟩, hpath⟩
    exact ⟨(place, items), hplace, mem_inlinedFrom_iff.mpr ⟨index, raw, hitem, htokens, hpath⟩⟩

theorem DistinctFronts.alone (h : DistinctFronts data) {place : Place} {index : Nat}
    {tokens : Value} (hholds : Holds data place index tokens) :
    Alone (inlinedAt (sections data)) (madeUpPath place.front index) tokens := by
  intro p hp hkey
  obtain ⟨items, raw, hplace, hitem, htokens⟩ := hholds
  obtain ⟨other, j, ⟨items', raw', hplace', hitem', htokens'⟩, hpath⟩ := mem_inlinedAt_iff.mp hp
  obtain ⟨hslash, hback⟩ := h.slashless _ hplace
  obtain ⟨hslash', hback'⟩ := h.slashless _ hplace'
  rw [hpath, fileKey_madeUpPath j hslash' hback', fileKey_madeUpPath index hslash hback] at hkey
  obtain ⟨hfront, rfl⟩ := madeUpPath_inj hkey
  obtain ⟨rfl, rfl⟩ := Prod.mk.inj (List.inj_on_of_nodup_map h.nodup hplace' hplace hfront)
  rw [hitem] at hitem'
  obtain rfl := Option.some.inj hitem'
  exact Option.some.inj (htokens'.symm.trans htokens)

/-- **Tokens in a manifest are read back where their path is their own.**  A set that holds its
tokens has the path made up for it, and they are read there if no other tokens have that path.  All
of them are read back exactly if this is so for all of them, as it is where the fronts differ. -/
theorem inline_read (hkeys : (Value.object data).KeysDistinct) (h : parse data source = .ok read) :
    (∀ place index tokens, Holds data place index tokens →
      (filesAt read.manifest place)[index]? = some (madeUpPath place.front index) ∧
      (Alone (inlinedAt (sections data)) (madeUpPath place.front index) tokens →
        ReadsBack read.manifest.inline (madeUpPath place.front index) tokens)) ∧
    (ReadsAll data read.manifest.inline ↔ ∀ place index tokens, Holds data place index tokens →
      Alone (inlinedAt (sections data)) (madeUpPath place.front index) tokens) ∧
    (DistinctFronts data → ReadsAll data read.manifest.inline) := by
  obtain ⟨hinline, hfiles⟩ := parse_inline hkeys h
  have hread : ∀ place index tokens, Holds data place index tokens →
      Alone (inlinedAt (sections data)) (madeUpPath place.front index) tokens →
      ReadsBack read.manifest.inline (madeUpPath place.front index) tokens := by
    intro place index tokens hholds halone
    rw [hinline]
    exact readsBack_of_alone (mem_inlinedAt_iff.mpr ⟨place, index, hholds, rfl⟩) halone
  refine ⟨fun place index tokens hholds => ⟨?_, hread place index tokens hholds⟩, ⟨?_, ?_⟩, ?_⟩
  · obtain ⟨items, raw, hplace, hitem, htokens⟩ := hholds
    rw [hfiles _ hplace]
    exact getElem?_filesFrom hitem htokens
  · -- two sets whose paths have one key read the same there
    intro hall place index tokens hholds p hp hkey
    obtain ⟨other, j, hother, hpath⟩ := mem_inlinedAt_iff.mp hp
    rw [hpath] at hkey
    exact (hall other j p.2 hother).unique (hall place index tokens hholds) hkey
  · intro hall place index tokens hholds
    exact hread place index tokens hholds (hall place index tokens hholds)
  · intro hfronts place index tokens hholds
    exact hread place index tokens hholds (hfronts.alone hholds)

end

/-! ### Two manifests -/

def oneToken (name : String) (n : Int) : Value :=
  .object [("tokens", .object [(name, .object [("$value", .int n)])])]

/-- A manifest with a base set, a modifier with a value and one that may be left out, of which each
has a token. -/
def threePlaces : Table String Value :=
  [("version", .text "1"), ("sets", .list [oneToken "base" 0]),
    ("modifiers", .list [
      .object [("name", .text "mode"), ("type", .text "enumerated"),
        ("values", .list [.text "dark"]),
        ("sets", .object [("dark", .list [oneToken "a" 1])])],
      .object [("name", .text "print"), ("type", .text "include"),
        ("include", .list [oneToken "b" 2])]])]

theorem inline_read_threePlaces :
    (Value.object threePlaces).KeysDistinct ∧ DistinctFronts threePlaces ∧
      ∃ read, parse threePlaces none = .ok read ∧
        ReadsBack read.manifest.inline "mode-dark-0.virtual.json"
          (.object [("a", .object [("$value", .int 1)])]) := by
  have hkeys : (Value.object threePlaces).KeysDistinct := by decide
  have hfronts : DistinctFronts threePlaces := ⟨by decide, by decide⟩
  refine ⟨hkeys, hfronts, _, rfl, ?_⟩
  exact (inline_read hkeys rfl).2.2 hfronts (.option "mode" "dark") 0 _
    ⟨[oneToken "a" 1], _, .tail _ (.head _), rfl, rfl⟩

/-- A manifest in which a value of one modifier and another modifier have the same front. -/
def sharedFront : Table String Value :=
  [("version", .text "1"), ("sets", .list [oneToken "base" 0]),
    ("modifiers", .list [
      .object [("name", .text "x"), ("type", .text "enumerated"),
        ("values", .list [.text "y-include"]),
        ("sets", .object [("y-include", .list [oneToken "a" 1])])],
      .object [("name", .text "x-y"), ("type", .text "include"),
        ("include", .list [oneToken "b" 2])]])]

/-- **Tokens are lost where two sets share a path.**  The manifest is read without a fault. -/
theorem not_inline_read :
    ¬ ∀ (data : Table String Value) (source : Option String) (read : ParsedManifest),
      (Value.object data).KeysDistinct → parse data source = .ok read →
        ReadsAll data read.manifest.inline := by
  intro hall
  have hread := hall sharedFront none _ (by decide) rfl
  have hfirst := hread (.option "x" "y-include") 0 (.object [("a", .object [("$value", .int 1)])])
    ⟨[oneToken "a" 1], _, .tail _ (.head _), rfl, rfl⟩
  have hsecond := hread (.option "x-y" "include") 0 (.object [("b", .object [("$value", .int 2)])])
    ⟨[oneToken "b" 2], _, .tail _ (.tail _ (.head _)), rfl, rfl⟩
  have htokens := hfirst.unique hsecond rfl
  simp at htokens

end DesignTokens.DtcgResolver

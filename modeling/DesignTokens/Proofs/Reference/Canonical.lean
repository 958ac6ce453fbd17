import DesignTokens.Proofs.Reference.Runs

/-!
# What the scan of a text records

`Alias.IsCanonical` says what a path looks like, and `Alias.Spells` how it may be written between
braces.  The runs that spell a path are recorded as aliases, every other run is malformed, and a
stray brace makes the whole text malformed (`Value.scan_text`).  An alias may have a line end
behind its path: then it is not a path itself and names the path in front of the line end.
-/

namespace DesignTokens

namespace Alias

variable {cs inner path : List Char}

/-- A segment of a path, by its characters. -/
structure Segment (cs : List Char) : Prop where
  ne_nil : cs ≠ []
  noDollar : cs.head? ≠ some '$'
  chars : ∀ c ∈ cs, Text.isBlank c = false ∧ c ≠ '.' ∧ c ≠ '{' ∧ c ≠ '}'

/-- A path: segments with dots between them, at least one of them. -/
def IsCanonical (cs : List Char) : Prop :=
  ∃ segments, segments ≠ [] ∧ (∀ segment ∈ segments, Segment segment) ∧
    cs = Text.joinOn '.' segments

/-- How a path may be written between braces: with dots or slashes between its segments, perhaps
with `#/` in front of it, and perhaps with the member that holds a value behind it. -/
def Spells (inner path : List Char) : Prop :=
  ∃ spelled tail, (inner = "#/".toList ++ (spelled ++ tail) ∨
      ¬ "#/".toList <+: inner ∧ inner = spelled ++ tail) ∧
    Text.replaceChar '/' '.' spelled = path ∧
    (tail = [] ∨ tail = ".$value".toList ∨ tail = "/$value".toList)

/-! ### Paths -/

theorem isSegmentChar_iff {c : Char} :
    isSegmentChar c = true ↔ Text.isBlank c = false ∧ c ≠ '.' ∧ c ≠ '{' ∧ c ≠ '}' := by
  simp [isSegmentChar, and_assoc]

theorem isSegment_iff : isSegment cs = true ↔ Segment cs := by
  cases cs with
  | nil => exact iff_of_false Bool.false_ne_true fun h => h.ne_nil rfl
  | cons c rest =>
    rw [isSegment, Bool.and_eq_true, Bool.and_eq_true, isSegmentChar_iff, List.all_eq_true,
      bne_iff_ne]
    constructor
    · rintro ⟨⟨hc, hdollar⟩, hrest⟩
      exact ⟨List.cons_ne_nil _ _, fun h => hdollar (Option.some.inj h),
        List.forall_mem_cons.mpr ⟨hc, fun d hd => isSegmentChar_iff.mp (hrest d hd)⟩⟩
    · intro h
      obtain ⟨hc, hrest⟩ := List.forall_mem_cons.mp h.chars
      exact ⟨⟨hc, fun he => h.noDollar (congrArg some he)⟩,
        fun d hd => isSegmentChar_iff.mpr (hrest d hd)⟩

theorem isPath_iff : isPath cs = true ↔ IsCanonical cs := by
  unfold isPath
  rw [List.all_eq_true]
  constructor
  · intro h
    exact ⟨_, Text.splitOn_ne_nil '.' cs, fun segment hs => isSegment_iff.mp (h segment hs),
      (Text.joinOn_splitOn '.' cs).symm⟩
  · rintro ⟨segments, hne, hsegments, rfl⟩
    rw [Text.splitOn_joinOn '.' hne fun segment hs hdot =>
      ((hsegments segment hs).chars _ hdot).2.1 rfl]
    exact fun segment hs => isSegment_iff.mpr (hsegments segment hs)

instance : Decidable (IsCanonical cs) := decidable_of_iff _ isPath_iff

theorem isWellFormed_iff : isWellFormed cs = true ↔ IsCanonical (withoutLineEnd cs) := isPath_iff

namespace IsCanonical

theorem ne_nil (h : IsCanonical cs) : cs ≠ [] := by
  rintro rfl
  exact absurd (isPath_iff.mpr h) (by decide)

theorem chars (h : IsCanonical cs) {c : Char} (hc : c ∈ cs) :
    Text.isBlank c = false ∧ c ≠ '{' ∧ c ≠ '}' := by
  obtain ⟨segments, hne, hsegments, rfl⟩ := h
  rcases Text.mem_joinOn hc with rfl | ⟨segment, hs, hc⟩
  · decide
  · obtain ⟨hblank, -, hbraces⟩ := (hsegments segment hs).chars c hc
    exact ⟨hblank, hbraces⟩

theorem not_value_suffix (h : IsCanonical cs) : ¬ ".$value".toList <:+ cs := by
  rintro ⟨front, rfl⟩
  have hpath := isPath_iff.mpr h
  rw [isPath, List.all_eq_true] at hpath
  have hlast := hpath "$value".toList (by
    show _ ∈ Text.splitOn '.' (front ++ '.' :: "$value".toList)
    rw [Text.splitOn_append_cons]
    exact List.mem_append_right _ (by decide))
  exact absurd hlast (by decide)

end IsCanonical

/-! ### A line end behind a path -/

theorem withoutLineEnd_concat (cs : List Char) : withoutLineEnd (cs ++ ['\n']) = cs := by
  rw [withoutLineEnd, Text.beforeTail?_eq_some_iff.mpr rfl, Option.getD_some]

theorem withoutLineEnd_of_not_suffix (h : ¬ ['\n'] <:+ cs) : withoutLineEnd cs = cs := by
  rw [withoutLineEnd, Text.beforeTail?_eq_none h, Option.getD_none]

theorem exists_eq_withoutLineEnd_append (cs : List Char) :
    ∃ tail, cs = withoutLineEnd cs ++ tail ∧ ∀ c ∈ tail, Text.isBlank c = true := by
  by_cases hline : ['\n'] <:+ cs
  · obtain ⟨front, rfl⟩ := hline
    refine ⟨['\n'], by rw [withoutLineEnd_concat], fun c hc => ?_⟩
    rw [List.mem_singleton.mp hc]
    decide
  · refine ⟨[], ?_, fun c hc => absurd hc List.not_mem_nil⟩
    rw [withoutLineEnd_of_not_suffix hline, List.append_nil]

theorem not_value_suffix_of_isWellFormed (h : IsCanonical (withoutLineEnd cs)) :
    ¬ ".$value".toList <:+ cs := by
  rintro hvalue
  have hline : ¬ ['\n'] <:+ cs := by
    intro hline
    obtain ⟨front, rfl⟩ := hvalue
    obtain ⟨other, hother⟩ := hline
    have hlast := congrArg List.getLast? hother
    rw [List.getLast?_concat, List.getLast?_append] at hlast
    exact absurd (Option.some.inj hlast) (by decide)
  rw [withoutLineEnd_of_not_suffix hline] at h
  exact h.not_value_suffix hvalue

/-- A path is left as it is, and white space behind it is dropped. -/
theorem pathOf_append {tail : List Char} (h : IsCanonical cs) (hslash : '/' ∉ cs)
    (htail : ∀ c ∈ tail, Text.isBlank c = true) : pathOf (cs ++ tail) = cs := by
  have hstrip : Text.strip (cs ++ tail) = cs :=
    Text.strip_append h.ne_nil (fun c hc => (h.chars (List.mem_of_head? hc)).1)
      (fun c hc => (h.chars (List.mem_of_getLast? hc)).1) htail
  have hunbraced : unbraced cs = cs := by
    unfold unbraced
    split
    · exact absurd rfl (h.chars List.mem_cons_self).2.1
    · rfl
  have hmark : ¬ "#/".toList <+: cs := fun hp => hslash (hp.subset (by decide))
  rw [pathOf, hstrip, hunbraced, Text.afterFront?_eq_none hmark, Option.getD_none,
    Text.replaceChar_of_not_mem hslash, Text.beforeTail?_eq_none h.not_value_suffix,
    Option.getD_none]

/-! ### How a path is written -/

/-- What is written behind the mark of a pointer, if there is one. -/
theorem afterFront?_getD {front body : List Char} :
    (inner = front ++ body ∨ ¬ front <+: inner ∧ inner = body) ↔
      (Text.afterFront? front inner).getD inner = body := by
  cases hfront : Text.afterFront? front inner with
  | none =>
    have hnot : ¬ front <+: inner := by
      rintro ⟨rest, hrest⟩
      rw [Text.afterFront?_eq_some_iff.mpr hrest.symm] at hfront
      cases hfront
    constructor
    · rintro (rfl | ⟨-, h⟩)
      · exact absurd (List.prefix_append _ _) hnot
      · exact h
    · exact fun h => Or.inr ⟨hnot, h⟩
  | some rest =>
    obtain rfl := Text.afterFront?_eq_some_iff.mp hfront
    rw [Option.getD_some]
    constructor
    · rintro (h | ⟨hnot, -⟩)
      · exact List.append_cancel_left h
      · exact absurd (List.prefix_append _ _) hnot
    · rintro rfl
      exact Or.inl rfl

theorem replaceChar_eq_valueTail {tail : List Char} :
    Text.replaceChar '/' '.' tail = ".$value".toList ↔
      tail = ".$value".toList ∨ tail = "/$value".toList := by
  constructor
  · intro h
    rw [show ".$value".toList = '.' :: "$value".toList by decide] at h
    obtain ⟨c, rest, rfl, hc, hrest⟩ := List.map_eq_cons_iff.mp h
    have hkept : rest = "$value".toList := by
      refine Eq.trans (Text.replaceChar_of_not_mem fun hslash => ?_).symm hrest
      have hdot := List.mem_map_of_mem (f := fun c => if c = '/' then '.' else c) hslash
      rw [hrest] at hdot
      exact absurd hdot (by decide)
    rw [hkept]
    split at hc
    · rename_i hslash
      exact Or.inr (congrArg (· :: _) hslash)
    · exact Or.inl (congrArg (· :: _) hc)
  · rintro (rfl | rfl)
    · decide
    · decide

theorem pathOf_withBraces (inner : List Char) :
    pathOf (withBraces inner) =
      (Text.beforeTail? ".$value".toList
        (Text.replaceChar '/' '.' ((Text.afterFront? "#/".toList inner).getD inner))).getD
        (Text.replaceChar '/' '.' ((Text.afterFront? "#/".toList inner).getD inner)) := by
  have hstrip := strip_withBraces inner [] fun _ h => absurd h List.not_mem_nil
  rw [List.append_nil] at hstrip
  have hunbraced : unbraced (withBraces inner) = inner := by
    show (Text.beforeTail? ['}'] (inner ++ ['}'])).getD _ = inner
    rw [Text.beforeTail?_eq_some_iff.mpr rfl, Option.getD_some]
  rw [pathOf, hstrip, hunbraced]

/-- The runs that spell a path are those that it is read off from. -/
theorem spells_iff (h : IsCanonical (withoutLineEnd path)) :
    Spells inner path ↔ pathOf (withBraces inner) = path := by
  rw [pathOf_withBraces]
  unfold Spells
  simp only [afterFront?_getD]
  generalize (Text.afterFront? "#/".toList inner).getD inner = body
  constructor
  · rintro ⟨spelled, tail, rfl, rfl, htail⟩
    rw [Text.replaceChar_append]
    rcases htail with rfl | htail
    · rw [Text.replaceChar, Text.replaceChar, List.map_nil, List.append_nil, ← Text.replaceChar,
        Text.beforeTail?_eq_none (not_value_suffix_of_isWellFormed h), Option.getD_none]
    · rw [replaceChar_eq_valueTail.mpr htail, Text.beforeTail?_eq_some_iff.mpr rfl,
        Option.getD_some]
  · intro hpath
    cases hvalue : Text.beforeTail? ".$value".toList (Text.replaceChar '/' '.' body) with
    | none =>
      rw [hvalue, Option.getD_none] at hpath
      exact ⟨body, [], (List.append_nil body).symm, hpath, Or.inl rfl⟩
    | some front =>
      rw [hvalue, Option.getD_some] at hpath
      obtain ⟨spelled, tail, hbody, hfront, htail⟩ :=
        List.map_eq_append_iff.mp (Text.beforeTail?_eq_some_iff.mp hvalue)
      exact ⟨spelled, tail, hbody, hfront.trans hpath, Or.inr (replaceChar_eq_valueTail.mp htail)⟩

theorem Spells.slash_not_mem (h : Spells inner path) : '/' ∉ path := by
  obtain ⟨spelled, -, -, rfl, -⟩ := h
  intro hslash
  rcases Text.mem_replaceChar hslash with hdot | ⟨hne, -⟩
  · exact absurd hdot (by decide)
  · exact hne rfl

theorem Spells.mem (h : Spells inner path) {c : Char} (hc : c ∈ path) : c = '.' ∨ c ∈ inner := by
  obtain ⟨spelled, tail, hinner, rfl, -⟩ := h
  refine (Text.mem_replaceChar hc).imp_right fun hkept => ?_
  rcases hinner with rfl | ⟨-, rfl⟩
  · exact List.mem_append_right _ (List.mem_append_left _ hkept.2)
  · exact List.mem_append_left _ hkept.2

/-- A run that spells a path, perhaps with a line end behind it. -/
def Names (inner path : List Char) : Prop := Spells inner path ∧ IsCanonical (withoutLineEnd path)

theorem exists_names_iff :
    (∃ path, Names inner path) ↔ isWellFormed (pathOf (withBraces inner)) = true := by
  rw [isWellFormed_iff]
  constructor
  · rintro ⟨path, hspells, hpath⟩
    rwa [(spells_iff hpath).mp hspells]
  · exact fun h => ⟨_, (spells_iff h).mpr rfl, h⟩

theorem Names.path_ofList (h : Names inner path) :
    Alias.path (String.ofList path) = String.ofList (withoutLineEnd path) := by
  obtain ⟨tail, hsplit, htail⟩ := exists_eq_withoutLineEnd_append path
  have hslash : '/' ∉ withoutLineEnd path := fun hm =>
    h.1.slash_not_mem (hsplit ▸ List.mem_append_left _ hm)
  rw [Alias.path, String.toList_ofList]
  refine congrArg String.ofList (Eq.trans (congrArg pathOf hsplit) ?_)
  exact pathOf_append h.2 hslash htail

/-- What a run names is a path itself unless a line end is behind it. -/
theorem Names.isCanonical_iff (h : Names inner path) :
    IsCanonical path ↔ ¬ ['\n'] <:+ path := by
  constructor
  · rintro hpath ⟨front, rfl⟩
    exact absurd (hpath.chars (List.mem_append_right _ List.mem_cons_self)).1 (by decide)
  · intro hline
    have hpath := h.2
    rwa [withoutLineEnd_of_not_suffix hline] at hpath

end Alias

/-! ### The references of a text -/

namespace Occurrence

open Alias

variable {s a m : String} {inner : List Char}

theorem ofPiece_eq_aliasOf_iff :
    ofPiece (.braced inner) = some (.aliasOf a) ↔ Names inner a.toList := by
  rw [ofPiece]
  split
  · rename_i hwell
    rw [Option.some.injEq, aliasOf.injEq, Names]
    constructor
    · rintro rfl
      rw [String.toList_ofList]
      exact ⟨(spells_iff (isWellFormed_iff.mp hwell)).mpr rfl, isWellFormed_iff.mp hwell⟩
    · rintro ⟨hspells, hpath⟩
      rw [(spells_iff hpath).mp hspells, String.ofList_toList]
  · rename_i hwell
    refine iff_of_false (fun h => ?_) fun h => hwell (exists_names_iff.mp ⟨_, h⟩)
    cases h

theorem ofPiece_eq_malformed_iff :
    ofPiece (.braced inner) = some (.malformed m) ↔
      (¬ ∃ path, Names inner path) ∧ m = String.ofList (withBraces inner) := by
  rw [ofPiece, exists_names_iff]
  split
  · rename_i hwell
    refine iff_of_false (fun h => ?_) fun h => h.1 hwell
    cases h
  · rename_i hwell
    rw [Option.some.injEq, malformed.injEq, eq_comm, and_iff_right hwell]

theorem mem_filterMap_ofPiece {o : Occurrence} :
    o ∈ (pieces s.toList).filterMap ofPiece ↔
      ∃ inner, IsRun s.toList inner ∧ ofPiece (.braced inner) = some o := by
  rw [List.mem_filterMap]
  constructor
  · rintro ⟨piece, hpiece, ho⟩
    cases piece with
    | plain c => cases ho
    | braced inner => exact ⟨inner, braced_mem_pieces_iff.mp hpiece, ho⟩
  · rintro ⟨inner, hrun, ho⟩
    exact ⟨_, braced_mem_pieces_iff.mpr hrun, ho⟩

/-- The aliases of a text are the paths that its runs name. -/
theorem aliasOf_mem_ofText_iff :
    .aliasOf a ∈ ofText s ↔ ∃ inner, IsRun s.toList inner ∧ Names inner a.toList := by
  have hstray :
      .aliasOf a ∉ (if (pieces s.toList).any isStrayBrace then [malformed s] else []) := by
    split <;> simp
  rw [ofText, List.mem_append, or_iff_left hstray, mem_filterMap_ofPiece]
  simp only [ofPiece_eq_aliasOf_iff]

/-- Malformed are the runs that name no path, and a text with a stray brace. -/
theorem malformed_mem_ofText_iff :
    .malformed m ∈ ofText s ↔
      (∃ inner, IsRun s.toList inner ∧ (¬ ∃ path, Names inner path) ∧
        m = String.ofList (withBraces inner)) ∨
      (m = s ∧ HasStrayBrace s.toList) := by
  have hany : (pieces s.toList).any isStrayBrace = true ↔ HasStrayBrace s.toList := by
    rw [← exists_brace_plain_iff, List.any_eq_true]
    constructor
    · rintro ⟨piece, hpiece, hbrace⟩
      cases piece with
      | plain c => exact ⟨c, hpiece, by simpa [isStrayBrace] using hbrace⟩
      | braced inner => cases hbrace
    · rintro ⟨c, hc, hbrace⟩
      exact ⟨_, hc, by simpa [isStrayBrace] using hbrace⟩
  have hstray : .malformed m ∈ (if (pieces s.toList).any isStrayBrace then [malformed s] else []) ↔
      m = s ∧ HasStrayBrace s.toList := by
    rw [← hany]
    split
    · rename_i h
      simp [h]
    · rename_i h
      simp [h]
  rw [ofText, List.mem_append, mem_filterMap_ofPiece, hstray]
  simp only [ofPiece_eq_malformed_iff]

end Occurrence

/-! ### The scan -/

namespace Value

open Alias

/-- **What the scan of a text records.**  Its aliases are the paths that its runs name.  An alias
is a path, and the same as a reference, unless a line end is behind it, and then it stands for what
is in front of the line end; this is only seen in a text with line ends.  Every other run is
malformed, and so is the text where it has a stray brace, so no brace is passed over. -/
theorem scan_text (s : String) :
    (∀ a, a ∈ (Scan.of (.text s)).aliases ↔
      ∃ inner, IsRun s.toList inner ∧ Spells inner a.toList ∧
        IsCanonical (withoutLineEnd a.toList)) ∧
    (∀ a ∈ (Scan.of (.text s)).aliases,
      Alias.path a = String.ofList (withoutLineEnd a.toList) ∧
      (IsCanonical a.toList ∧ Alias.path a = a ↔ ¬ ['\n'] <:+ a.toList) ∧
      ('\n' ∉ s.toList → IsCanonical a.toList ∧ Alias.path a = a)) ∧
    (∀ m, m ∈ (Scan.of (.text s)).malformed ↔
      (∃ inner, IsRun s.toList inner ∧
        (¬ ∃ path, Spells inner path ∧ IsCanonical (withoutLineEnd path)) ∧
        m = String.ofList (withBraces inner)) ∨
      (m = s ∧ HasStrayBrace s.toList)) ∧
    ((∃ c ∈ s.toList, c = '{' ∨ c = '}') →
      (Scan.of (.text s)).aliases ≠ [] ∨ (Scan.of (.text s)).malformed ≠ []) := by
  have haliases : ∀ a, a ∈ (Scan.of (.text s)).aliases ↔
      ∃ inner, IsRun s.toList inner ∧ Names inner a.toList := fun a =>
    mem_aliases_iff.trans Occurrence.aliasOf_mem_ofText_iff
  refine ⟨haliases, fun a ha => ?_,
    fun m => mem_malformed_iff.trans Occurrence.malformed_mem_ofText_iff, ?_⟩
  · obtain ⟨inner, hrun, hnames⟩ := (haliases a).mp ha
    have hpath := hnames.path_ofList
    rw [String.ofList_toList] at hpath
    have hfixed : IsCanonical a.toList ∧ Alias.path a = a ↔ ¬ ['\n'] <:+ a.toList := by
      rw [hnames.isCanonical_iff, and_iff_left_iff_imp]
      intro hline
      rw [hpath, withoutLineEnd_of_not_suffix hline, String.ofList_toList]
    refine ⟨hpath, hfixed, fun hnone => hfixed.mpr fun hline => ?_⟩
    rcases hnames.1.mem (hline.subset List.mem_cons_self) with hdot | hinner
    · exact absurd hdot (by decide)
    · exact hnone (hrun.subset hinner)
  · rintro ⟨c, hc, hbrace⟩
    by_contra hnone
    rw [not_or, not_ne_iff, not_ne_iff] at hnone
    have hocc := occurrences_eq_nil_of_scan hnone.1
      (List.eq_nil_iff_forall_not_mem.mpr fun ref href =>
        Occurrence.pointer_not_mem_ofText s ref (mem_pointers_iff.mp href)) hnone.2
    obtain ⟨hopen, hclose⟩ := Occurrence.ofText_eq_nil_iff.mp hocc c hc
    exact hbrace.elim hopen hclose

/-- A pointer in braces, the member of a value behind a path, a brace too many, a blank in a run. -/
theorem scan_text_mixed :
    (Scan.of (.text "\x7b#/a/b\x7d \x7bc.$value\x7d\x7d \x7bx y\x7d")).aliases = ["a.b", "c"] ∧
      (Scan.of (.text "\x7b#/a/b\x7d \x7bc.$value\x7d\x7d \x7bx y\x7d")).malformed =
        ["\x7bx y\x7d", "\x7b#/a/b\x7d \x7bc.$value\x7d\x7d \x7bx y\x7d"] ∧
      ∀ a ∈ ["a.b", "c"], IsCanonical a.toList ∧ Alias.path a = a := by
  have hfound : (Scan.of (.text "\x7b#/a/b\x7d \x7bc.$value\x7d\x7d \x7bx y\x7d")).aliases =
      ["a.b", "c"] := by decide
  refine ⟨hfound, by decide, fun a ha => ?_⟩
  exact ((scan_text _).2.1 a (hfound.symm ▸ ha)).2.2 (by decide)

/-- With a line end in front of its closing brace a run is not malformed, and its alias is no
path. -/
theorem not_canonical_of_lineEnd :
    (Scan.of (.text "\x7ba\n\x7d")).aliases = ["a\n"] ∧
      (Scan.of (.text "\x7ba\n\x7d")).malformed = [] ∧
      ¬ IsCanonical "a\n".toList ∧ Alias.path "a\n" = "a" := by
  decide

end Value

end DesignTokens

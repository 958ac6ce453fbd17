import DesignTokens.FilePath
import DesignTokens.Proofs.Text.Ends

/-!
# Normal paths

A path is normal if its parts are names, or steps up in front of them where it does not begin at
the root (`FilePath.Normal`).  Normalizing leaves such a path (`normal_normalize`) and changes
nothing in one (`Normal.normalize_eq`), and its text is read as the same path again
(`Normal.ofChars_key`).  So the key of a file is the text of a normal path (`exists_normal`) and is
its own key (`fileKey_fileKey`).
-/

namespace DesignTokens.FilePath

variable {p : FilePath} {absolute : Bool} {parts before names : List String} {part : String}
  {cs : List Char}

/-! ### Parts -/

/-- What can stand between two slashes of a path that is written with slashes only.  Nothing at all
and a single dot say nothing there. -/
structure IsPart (part : String) : Prop where
  ne_nil : part.toList ≠ []
  ne_dot : part.toList ≠ ['.']
  slash : '/' ∉ part.toList
  backslash : '\\' ∉ part.toList

theorem isPart_up : IsPart ".." := ⟨by decide, by decide, by decide, by decide⟩

theorem isPart_of_mem_partsOf (hcs : '\\' ∉ cs) (h : part ∈ partsOf cs) : IsPart part := by
  obtain ⟨chars, hchars, rfl⟩ := List.mem_map.mp h
  obtain ⟨hsplit, hkept⟩ := List.mem_filter.mp hchars
  simp only [Bool.not_eq_true', Bool.or_eq_false_iff, List.isEmpty_eq_false_iff,
    beq_eq_false_iff_ne] at hkept
  constructor <;> rw [String.toList_ofList]
  · exact hkept.1
  · exact hkept.2
  · exact Text.not_mem_of_mem_splitOn hsplit
  · exact fun hmem => hcs (Text.mem_of_mem_splitOn hsplit hmem).1

theorem not_mem_withSlashes (text : String) : '\\' ∉ withSlashes text := fun h =>
  (Text.mem_replaceChar h).elim (by decide) fun h => h.1 rfl

theorem isPart_of_mem_spelling {text : String} (h : part ∈ (ofChars (withSlashes text)).parts) :
    IsPart part := isPart_of_mem_partsOf (not_mem_withSlashes text) h

theorem isPart_of_mem_directoryOf {text : String}
    (h : part ∈ (directoryOf (withSlashes text)).parts) : IsPart part := by
  refine isPart_of_mem_partsOf (fun hmem => not_mem_withSlashes text ?_) h
  have hdropped := (List.dropWhile_sublist _).subset (List.mem_reverse.mp hmem)
  exact List.mem_reverse.mp hdropped

theorem leadingSlashes_le (cs : List Char) : leadingSlashes cs ≤ 2 := by
  unfold leadingSlashes
  split <;> omega

/-! ### Steps up -/

/-- Steps up stand in front of the names, and there are none below the root. -/
def Climbed (absolute : Bool) (parts : List String) : Prop :=
  ∃ ups names, parts = List.replicate ups ".." ++ names ∧ ".." ∉ names ∧
    (absolute = true → ups = 0)

theorem climb_name (h : part ≠ "..") : climb absolute before part = part :: before := if_neg h

theorem climb_up_replicate {ups : Nat} (h : absolute = true → ups = 0) :
    climb absolute (List.replicate ups "..") ".." =
      List.replicate (if absolute then 0 else ups + 1) ".." := by
  unfold climb
  rw [if_pos rfl]
  cases absolute with
  | true =>
    rw [h rfl]
    rfl
  | false =>
    cases ups with
    | zero => rfl
    | succ ups => exact if_pos rfl

theorem climb_up_name (h : part ≠ "..") : climb absolute (part :: before) ".." = before := by
  unfold climb
  rw [if_pos rfl]
  exact if_neg h

/-- One more part keeps the steps up in front. -/
theorem Climbed.climb (h : Climbed absolute before.reverse) (part : String) :
    Climbed absolute (climb absolute before part).reverse := by
  obtain ⟨ups, names, hbefore, hnames, hups⟩ := h
  have hreversed : before = names.reverse ++ List.replicate ups ".." := by
    rw [← List.reverse_reverse before, hbefore, List.reverse_append, List.reverse_replicate]
  by_cases hpart : part = ".."
  · subst hpart
    cases hlast : names.reverse with
    | nil =>
      rw [hreversed, hlast, List.nil_append, climb_up_replicate hups, List.reverse_replicate]
      refine ⟨_, [], (List.append_nil _).symm, List.not_mem_nil, fun habsolute => ?_⟩
      exact if_pos habsolute
    | cons last front =>
      have hmem : ∀ name ∈ last :: front, name ∈ names :=
        fun name hname => List.mem_reverse.mp (hlast ▸ hname)
      have hne : last ≠ ".." := ne_of_mem_of_not_mem (hmem last List.mem_cons_self) hnames
      rw [hreversed, hlast, List.cons_append, climb_up_name hne, List.reverse_append,
        List.reverse_replicate]
      refine ⟨ups, front.reverse, rfl, fun hup => hnames ?_, hups⟩
      exact hmem _ (List.mem_cons_of_mem _ (List.mem_reverse.mp hup))
  · rw [climb_name hpart, List.reverse_cons, hbefore, List.append_assoc]
    refine ⟨ups, names ++ [part], rfl, fun hup => ?_, hups⟩
    rcases List.mem_append.mp hup with hup | hup
    · exact hnames hup
    · exact hpart (List.mem_singleton.mp hup).symm

theorem climbed_foldl (h : Climbed absolute before.reverse) (parts : List String) :
    Climbed absolute (parts.foldl (climb absolute) before).reverse := by
  induction parts generalizing before with
  | nil => exact h
  | cons part parts ih => exact ih (h.climb part)

theorem mem_foldl_climb (h : part ∈ parts.foldl (climb absolute) before) :
    part = ".." ∨ part ∈ parts ∨ part ∈ before := by
  induction parts generalizing before with
  | nil => exact Or.inr (Or.inr h)
  | cons first parts ih =>
    rcases ih h with hup | hmem | hmem
    · exact Or.inl hup
    · exact Or.inr (Or.inl (List.mem_cons_of_mem first hmem))
    · have hstep : part = ".." ∨ part = first ∨ part ∈ before := by
        unfold climb at hmem
        split at hmem
        · split at hmem
          · split at hmem
            · exact absurd hmem List.not_mem_nil
            · exact Or.inl (List.mem_singleton.mp hmem)
          · split at hmem
            · exact (List.mem_cons.mp hmem).imp_right Or.inr
            · exact Or.inr (Or.inr (List.mem_cons_of_mem _ hmem))
        · exact Or.inr (List.mem_cons.mp hmem)
      exact hstep.imp_right (Or.imp_left fun he => List.mem_cons.mpr (Or.inl he))

theorem foldl_climb_names (h : ".." ∉ names) :
    names.foldl (climb absolute) before = names.reverse ++ before := by
  induction names generalizing before with
  | nil => rfl
  | cons name names ih =>
    obtain ⟨hname, hnames⟩ := not_or.mp (mt List.mem_cons.mpr h)
    rw [List.foldl_cons, climb_name (Ne.symm hname), ih hnames, List.reverse_cons,
      List.append_assoc]
    rfl

theorem foldl_climb_ups (before ups : Nat) :
    (List.replicate ups "..").foldl (climb false) (List.replicate before "..") =
      List.replicate (before + ups) ".." := by
  induction ups generalizing before with
  | zero => rfl
  | succ ups ih =>
    have hup : climb false (List.replicate before "..") ".." = List.replicate (before + 1) ".." :=
      climb_up_replicate nofun
    rw [List.replicate_succ, List.foldl_cons, hup, ih]
    exact congrArg (List.replicate · "..") (by omega)

/-- Climbing leaves parts alone that have their steps up in front. -/
theorem Climbed.foldl_eq (h : Climbed absolute parts) :
    parts.foldl (FilePath.climb absolute) [] = parts.reverse := by
  obtain ⟨ups, names, rfl, hnames, hups⟩ := h
  have hclimbed : (List.replicate ups "..").foldl (FilePath.climb absolute) [] =
      List.replicate ups ".." := by
    cases absolute with
    | true =>
      rw [hups rfl]
      rfl
    | false =>
      exact (foldl_climb_ups 0 ups).trans (congrArg (List.replicate · "..") (Nat.zero_add _))
  rw [List.foldl_append, hclimbed, foldl_climb_names hnames, List.reverse_append,
    List.reverse_replicate]

/-! ### Normal paths -/

/-- A path as it is left when it is normalized. -/
structure Normal (p : FilePath) : Prop where
  slashes : p.slashes ≤ 2
  isPart : ∀ part ∈ p.parts, IsPart part
  climbed : Climbed p.isAbsolute p.parts

theorem normal_normalize (hslashes : p.slashes ≤ 2) (hparts : ∀ part ∈ p.parts, IsPart part) :
    p.normalize.Normal where
  slashes := hslashes
  isPart part hmem := by
    rcases mem_foldl_climb (List.mem_reverse.mp hmem) with rfl | hpart | hnil
    · exact isPart_up
    · exact hparts part hpart
    · exact absurd hnil List.not_mem_nil
  climbed := climbed_foldl ⟨0, [], rfl, List.not_mem_nil, fun _ => rfl⟩ p.parts

theorem partsOf_cons_slash (cs : List Char) : partsOf ('/' :: cs) = partsOf cs := by
  unfold partsOf
  rw [Text.splitOn, if_pos rfl]
  exact congrArg _ (List.filter_cons_of_neg (by decide))

theorem partsOf_joinOn (h : ∀ part ∈ parts, IsPart part) :
    partsOf (Text.joinOn '/' (parts.map String.toList)) = parts := by
  by_cases hne : parts = []
  · rw [hne]
    rfl
  · have hchars : ∀ chars ∈ parts.map String.toList, ∃ part ∈ parts, part.toList = chars :=
      fun chars hchars => List.mem_map.mp hchars
    unfold partsOf
    rw [Text.splitOn_joinOn '/' (by simpa using hne), List.filter_eq_self.mpr, List.map_map]
    · exact (List.map_congr_left fun part _ => String.ofList_toList).trans (List.map_id _)
    · intro chars hmem
      obtain ⟨part, hpart, rfl⟩ := hchars chars hmem
      simp [(h part hpart).ne_nil, (h part hpart).ne_dot]
    · intro chars hmem
      obtain ⟨part, hpart, rfl⟩ := hchars chars hmem
      exact (h part hpart).slash

theorem head?_joinOn_ne_slash (h : ∀ part ∈ parts, IsPart part) :
    (Text.joinOn '/' (parts.map String.toList)).head? ≠ some '/' := by
  cases parts with
  | nil => simp [Text.joinOn]
  | cons part parts =>
    have hpart := h part List.mem_cons_self
    rw [List.map_cons, Text.head?_joinOn hpart.ne_nil]
    exact fun hhead => hpart.slash (List.mem_of_head? hhead)

theorem leadingSlashes_replicate {slashes : Nat} (h : slashes ≤ 2) (hcs : cs.head? ≠ some '/') :
    leadingSlashes (List.replicate slashes '/' ++ cs) = slashes := by
  have hcases : slashes = 0 ∨ slashes = 1 ∨ slashes = 2 := by omega
  cases cs with
  | nil => rcases hcases with rfl | rfl | rfl <;> rfl
  | cons c cs =>
    have hc : c ≠ '/' := fun he => hcs (congrArg some he)
    rcases hcases with rfl | rfl | rfl <;> simp [leadingSlashes, List.replicate, hc]

theorem partsOf_replicate (slashes : Nat) (cs : List Char) :
    partsOf (List.replicate slashes '/' ++ cs) = partsOf cs := by
  induction slashes with
  | zero => rfl
  | succ slashes ih =>
    rw [List.replicate_succ, List.cons_append, partsOf_cons_slash, ih]

theorem toList_key (p : FilePath) : p.key.toList =
    List.replicate p.slashes '/' ++ Text.joinOn '/' (p.parts.map String.toList) := by
  unfold key Text.join
  rw [String.toList_append, String.toList_ofList, String.toList_ofList]

namespace Normal

theorem ofChars_key (h : p.Normal) : ofChars p.key.toList = p := by
  rw [toList_key, ofChars, leadingSlashes_replicate h.slashes (head?_joinOn_ne_slash h.isPart),
    partsOf_replicate, partsOf_joinOn h.isPart]

theorem normalize_eq (h : p.Normal) : p.normalize = p := by
  unfold normalize
  rw [h.climbed.foldl_eq, List.reverse_reverse]

theorem withSlashes_key (h : p.Normal) : withSlashes p.key = p.key.toList := by
  refine Text.replaceChar_of_not_mem fun hmem => ?_
  rw [toList_key] at hmem
  rcases List.mem_append.mp hmem with hmem | hmem
  · exact absurd (List.eq_of_mem_replicate hmem) (by decide)
  · rcases Text.mem_joinOn hmem with he | ⟨chars, hchars, hmem⟩
    · exact absurd he (by decide)
    · obtain ⟨part, hpart, rfl⟩ := List.mem_map.mp hchars
      exact (h.isPart part hpart).backslash hmem

theorem fileKey_key (h : p.Normal) : fileKey p.key none = p.key := by
  have hbase : (none : Option String).getD "" = "" := rfl
  unfold fileKey
  dsimp only
  rw [h.withSlashes_key, h.ofChars_key, if_pos (Or.inl hbase), h.normalize_eq]

end Normal

/-! ### Keys -/

/-- Every key is the text of a normal path. -/
theorem exists_normal (path : String) (base : Option String) :
    ∃ p : FilePath, p.Normal ∧ fileKey path base = p.key := by
  unfold fileKey
  dsimp only
  split
  · exact ⟨_, normal_normalize (leadingSlashes_le _) fun part => isPart_of_mem_spelling, rfl⟩
  · refine ⟨_, normal_normalize ?_ fun part hmem => ?_, rfl⟩
    · unfold below
      split
      · exact leadingSlashes_le _
      · exact leadingSlashes_le _
    · unfold below at hmem
      split at hmem
      · exact isPart_of_mem_spelling hmem
      · rcases List.mem_append.mp hmem with hmem | hmem
        · exact isPart_of_mem_directoryOf hmem
        · exact isPart_of_mem_spelling hmem

theorem fileKey_fileKey (path : String) (base : Option String) :
    fileKey (fileKey path base) none = fileKey path base := by
  obtain ⟨p, hp, hkey⟩ := exists_normal path base
  rw [hkey]
  exact hp.fileKey_key

end DesignTokens.FilePath

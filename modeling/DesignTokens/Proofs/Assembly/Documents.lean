import DesignTokens.Proofs.Assembly.Coverage
import DesignTokens.Proofs.Assembly.Independence

/-!
# Assembling the project of some documents

The files of a project of documents are the trees of the documents
(`Project.tree?_build_of_mem`), so the project is sound if the documents are
(`Project.sound_build`).  Documents in another order, with their entries in another order,
give an alike project (`Project.alike_of_shuffled`).
-/

namespace DesignTokens

/-- Whether no part of a pointer consists of digits that write no number. -/
def Pointer.isReadable (ref : String) : Bool :=
  match parse ref with
  | .ok q => q.segments.all fun segment => index segment ≠ .unreadable
  | .error _ => true

theorem Pointer.readable_of_isReadable {ref : String} (h : isReadable ref = true) {q : Pointer}
    (hq : parse ref = .ok q) : ∀ segment ∈ q.segments, index segment ≠ .unreadable := by
  unfold isReadable at h
  rw [hq] at h
  exact fun segment hsegment => of_decide_eq_true (List.all_eq_true.mp h segment hsegment)

namespace Project

def keyOf (d : String × Value) : String := FilePath.fileKey d.1 none

def entryOf (d : String × Value) : String × TokenFile := (keyOf d, TokenFile.build d.1 d.2)

variable {documents others : Table String Value} {d e : String × Value} {file : String}
  {place : Place} {tree : Group} {t : Token}

/-! ### Files -/

theorem build_eq (documents : Table String Value) :
    build documents = ⟨Table.ofPairs (documents.map entryOf), true⟩ := by
  have hfold : ∀ (documents : Table String Value) (files : Table String TokenFile),
      documents.foldl (fun p d => p.add (TokenFile.build d.1 d.2)) (⟨files, true⟩ : Project) =
        ⟨(documents.map entryOf).foldl (fun t p => t.put p.1 p.2) files, true⟩ := by
    intro documents
    induction documents with
    | nil => exact fun files => rfl
    | cons d documents ih => exact fun files => ih _
  exact hfold documents []

theorem exists_of_get?_build {f : TokenFile} (h : (build documents).files.get? file = some f) :
    ∃ d ∈ documents, keyOf d = file ∧ f = TokenFile.build d.1 d.2 := by
  rw [build_eq] at h
  obtain ⟨d, hd, he⟩ := List.mem_map.mp (Table.mem_of_get?_ofPairs h)
  obtain ⟨rfl, rfl⟩ := Prod.mk.inj he
  exact ⟨d, hd, rfl, rfl⟩

theorem exists_of_tree?_build (h : (build documents).tree? file = some tree) :
    ∃ d ∈ documents, keyOf d = file ∧ tree = Group.build d.2 ∧
      entryOf d ∈ (build documents).files := by
  obtain ⟨f, hf, rfl⟩ := Option.map_eq_some_iff.mp h
  have hmem := Table.mem_of_get? hf
  obtain ⟨d, hd, rfl, rfl⟩ := exists_of_get?_build hf
  exact ⟨d, hd, rfl, rfl, hmem⟩

theorem get?_build_of_mem (hfiles : (documents.map keyOf).Nodup) (hd : d ∈ documents) :
    (build documents).files.get? (keyOf d) = some (TokenFile.build d.1 d.2) := by
  rw [build_eq]
  refine Table.get?_ofPairs (fun f hf => ?_) (List.mem_map.mpr ⟨d, hd, rfl⟩)
  obtain ⟨e, he, heq⟩ := List.mem_map.mp hf
  obtain ⟨hkey, rfl⟩ := Prod.mk.inj heq
  rw [List.inj_on_of_nodup_map hfiles he hd hkey]

theorem get?_build_eq_none (h : ∀ d ∈ documents, keyOf d ≠ file) :
    (build documents).files.get? file = none := by
  cases hf : (build documents).files.get? file with
  | none => rfl
  | some f =>
    rw [build_eq] at hf
    obtain ⟨d, hd, he⟩ := List.mem_map.mp (Table.mem_of_get?_ofPairs hf)
    exact absurd (congrArg Prod.fst he) (h d hd)

theorem path_of_tokenAt?_build (h : (build documents).tokenAt? file place = some t) :
    t.path = pathAt place := by
  obtain ⟨tree, htree, hat⟩ := Option.bind_eq_some_iff.mp h
  obtain ⟨d, -, -, rfl, -⟩ := exists_of_tree?_build htree
  obtain ⟨name, members, parent, inherited, rfl⟩ := Group.tokenAt?_build hat
  rfl

/-! ### What is asked of documents -/

/-- Documents with distinct keys, distinct paths of tokens in each file, no `$ref` member that is
not a text, and no outermost pointer with a part that consists of digits but is no number. -/
structure Fit (documents : Table String Value) : Prop where
  keysDistinct : ∀ d ∈ documents, d.2.KeysDistinct
  paths : ∀ f ∈ (build documents).files, (f.2.tree.tokens.map Token.path).Nodup
  texts : ∀ f ∈ (build documents).files, ∀ t ∈ f.2.tree.tokens, t.value.RefsAreTexts
  readable : ∀ f ∈ (build documents).files, ∀ t ∈ f.2.tree.tokens,
    ∀ ref ∈ t.value.outerPointers, Pointer.isReadable ref = true

def tokenCount (p : Project) : Nat := (p.files.flatMap fun f => f.2.tree.tokens).length

theorem sound_build (h : Fit documents) : (build documents).Sound where
  prepared := fun file tree htree => by
    obtain ⟨d, hd, -, rfl, hmem⟩ := exists_of_tree?_build htree
    exact Group.prepared_build (h.keysDistinct d hd) (h.paths _ hmem) (h.texts _ hmem)
  readable := fun file place t ht ref href q hq => by
    obtain ⟨tree, htree, hat⟩ := Option.bind_eq_some_iff.mp ht
    obtain ⟨d, hd, -, rfl, hmem⟩ := exists_of_tree?_build htree
    have hm := (Group.mem_tokens_iff (Group.keysDistinct_build (h.keysDistinct d hd))).mpr
      ⟨place, hat⟩
    exact Pointer.readable_of_isReadable (h.readable _ hmem t hm ref href) hq

def tokenKeys (p : Project) : List TokenKey :=
  p.files.flatMap fun f => f.2.tree.tokens.map fun t => (f.1, t.path)

theorem length_tokenKeys (p : Project) : p.tokenKeys.length = p.tokenCount := by
  unfold tokenKeys tokenCount
  rw [List.length_flatMap, List.length_flatMap]
  simp only [List.length_map]

theorem mem_tokenKeys (hkeys : ∀ d ∈ documents, d.2.KeysDistinct)
    (h : (build documents).tokenAt? file place = some t) :
    (file, t.path) ∈ (build documents).tokenKeys := by
  obtain ⟨tree, htree, hat⟩ := Option.bind_eq_some_iff.mp h
  obtain ⟨d, hd, rfl, rfl, hmem⟩ := exists_of_tree?_build htree
  have hm := (Group.mem_tokens_iff (Group.keysDistinct_build (hkeys d hd))).mpr ⟨place, hat⟩
  exact List.mem_flatMap.mpr ⟨_, hmem, List.mem_map.mpr ⟨t, hm, rfl⟩⟩

/-! ### Another order -/

/-- Documents in another order, each with its entries in another order. -/
def Shuffled (documents others : Table String Value) : Prop :=
  ∃ middle, documents.Perm middle ∧
    List.Forall₂ (fun d e => d.1 = e.1 ∧ d.2.Rearranged e.2) middle others

namespace Shuffled

theorem exists_other (h : Shuffled documents others) (hd : d ∈ documents) :
    ∃ e ∈ others, d.1 = e.1 ∧ d.2.Rearranged e.2 := by
  obtain ⟨middle, hperm, hall⟩ := h
  exact Value.exists_mem_of_forall₂ hall.flip (hperm.mem_iff.mp hd)

theorem exists_document (h : Shuffled documents others) (he : e ∈ others) :
    ∃ d ∈ documents, d.1 = e.1 ∧ d.2.Rearranged e.2 := by
  obtain ⟨middle, hperm, hall⟩ := h
  obtain ⟨d, hd, hrel⟩ := Value.exists_mem_of_forall₂ hall he
  exact ⟨d, hperm.mem_iff.mpr hd, hrel⟩

theorem nodup_keys (h : Shuffled documents others) (hfiles : (documents.map keyOf).Nodup) :
    (others.map keyOf).Nodup := by
  obtain ⟨middle, hperm, hall⟩ := h
  have hmiddle : middle.map keyOf = others.map keyOf := by
    clear hperm
    induction hall with
    | nil => rfl
    | cons hrel _ ih => rw [List.map_cons, List.map_cons, ih, keyOf, keyOf, hrel.1]
  rw [← hmiddle]
  exact (hperm.map keyOf).nodup_iff.mp hfiles

end Shuffled

/-- Documents in another order give an alike project. -/
theorem alike_of_shuffled (hkeys : ∀ d ∈ documents, d.2.KeysDistinct)
    (hfiles : (documents.map keyOf).Nodup) (h : Shuffled documents others) :
    Alike Value.Rearranged (build documents) (build others) := by
  have hothers := h.nodup_keys hfiles
  have hcases : ∀ file, (∃ d ∈ documents, ∃ e ∈ others, keyOf d = file ∧ keyOf e = file ∧
      d.2.Rearranged e.2) ∨
      (build documents).files.get? file = none ∧ (build others).files.get? file = none := by
    intro file
    by_cases hfile : ∃ d ∈ documents, keyOf d = file
    · obtain ⟨d, hd, hkey⟩ := hfile
      obtain ⟨e, he, hpath, hvalue⟩ := h.exists_other hd
      refine Or.inl ⟨d, hd, e, he, hkey, ?_, hvalue⟩
      rw [← hkey, keyOf, keyOf, hpath]
    · refine Or.inr ⟨get?_build_eq_none fun d hd hkey => hfile ⟨d, hd, hkey⟩,
        get?_build_eq_none fun e he hkey => hfile ?_⟩
      obtain ⟨d, hd, hpath, -⟩ := h.exists_document he
      refine ⟨d, hd, ?_⟩
      rw [← hkey, keyOf, keyOf, hpath]
  refine ⟨fileOf?_congr ?_ fun key => ?_, fun file place => ?_⟩
  · rw [build_eq, build_eq]
  · rcases hcases key with ⟨d, hd, e, he, rfl, hkey, -⟩ | ⟨hd, he⟩
    · have hfound := get?_build_of_mem hothers he
      rw [hkey] at hfound
      rw [get?_build_of_mem hfiles hd, hfound]
      exact congrArg some hkey.symm
    · rw [hd, he]
  · rcases hcases file with ⟨d, hd, e, he, rfl, hkey, hvalue⟩ | ⟨hd, he⟩
    · have hfound := get?_build_of_mem hothers he
      rw [hkey] at hfound
      have hd' : (build documents).tokenAt? (keyOf d) place = (Group.build d.2).tokenAt? place := by
        rw [tokenAt?, tree?, get?_build_of_mem hfiles hd]
        rfl
      have he' : (build others).tokenAt? (keyOf d) place = (Group.build e.2).tokenAt? place := by
        rw [tokenAt?, tree?, hfound]
        rfl
      have hsame := hvalue.sameTokens_build (hkeys d hd) place
      rw [← hd', ← he'] at hsame
      refine rel_imp (fun t u ht hu hvalue => ⟨?_, hvalue⟩) hsame
      exact (path_of_tokenAt?_build ht).trans (path_of_tokenAt?_build hu).symm
    · rw [tokenAt?, tokenAt?, tree?, tree?, hd, he]
      exact .none

/-- Documents in another order make a sound project, too. -/
theorem sound_of_shuffled (hfit : Fit documents) (hfiles : (documents.map keyOf).Nodup)
    (h : Shuffled documents others) : (build others).Sound := by
  have hbase := sound_build hfit
  have halike := (alike_of_shuffled hfit.keysDistinct hfiles h).symm Value.respected_rearranged
  refine ⟨fun file tree htree => ?_, fun file place u hu ref href q hq => ?_⟩
  · obtain ⟨e, he, -, rfl, -⟩ := exists_of_tree?_build htree
    obtain ⟨d, hd, -, hvalue⟩ := h.exists_document he
    have hat : ∀ {place u}, (Group.build e.2).tokenAt? place = some u →
        (build others).tokenAt? file place = some u := fun hu =>
      Option.bind_eq_some_iff.mpr ⟨_, htree, hu⟩
    refine Group.prepared_of_places (hvalue.keysDistinct (hfit.keysDistinct d hd)) ?_ ?_
    · intro place other u v hu hv hpath
      obtain ⟨t, ht, htu, -⟩ := halike.exists_token (hat hu)
      obtain ⟨w, hw, hwv, -⟩ := halike.exists_token (hat hv)
      exact hbase.place_eq ht hw (htu.symm.trans (hpath.trans hwv))
    · intro place u hu
      obtain ⟨t, ht, -, htu⟩ := halike.exists_token (hat hu)
      exact htu.symm.refsAreTexts (hbase.refsAreTexts file place t ht)
  · obtain ⟨t, ht, -, htu⟩ := halike.exists_token hu
    exact hbase.readable file place t ht ref (htu.mem_outerPointers.mp href) q hq

theorem Outcome.rel_valueAt? {R : Value → Value → Prop} {p q : Project}
    {first second : Project × Except NumeralFault (List Problem)} (hR : Value.Respected R)
    (h : Alike R p q) (hp : p.Outcome Set.univ first) (hq : q.Outcome Set.univ second)
    (file : String) (place : Place) :
    Option.Rel R (first.1.valueAt? file place) (second.1.valueAt? file place) := by
  rw [hp.values file place trivial, hq.values file place trivial]
  unfold valueAt?
  have hrel := h.tokens file place
  generalize p.tokenAt? file place = a at hrel ⊢
  generalize q.tokenAt? file place = b at hrel ⊢
  cases hrel with
  | none => exact .none
  | some hvalue => exact .some (hR.including hvalue.2 fun ref _ => h.rel_part hR file ref)

/-! ### All files -/

/-- **Every good token of a project gets the value to which it expands, and every other token
keeps exactly its failing pointers, each of which is reported once.**  The values are the same
if only the file of a token is assembled, and they do not depend on the order of the files or
of the entries. -/
theorem assemble_fills (documents : Table String Value) (maxDepth : Int) (hfit : Fit documents)
    (hlimit : ((build documents).tokenCount : Int) ≤ maxDepth) :
    (∃ problems, ((build documents).assemble maxDepth).2 = .ok problems ∧
      ∀ file place t, (build documents).tokenAt? file place = some t →
        ∃ u, ((build documents).assemble maxDepth).1.tokenAt? file place = some u ∧
          (build documents).Filled file place t u problems) ∧
    (∀ file, (∃ problems, ((build documents).assembleFile file maxDepth).2 = .ok problems) ∧
      ∀ place, ((build documents).assembleFile file maxDepth).1.valueAt? file place =
        ((build documents).assemble maxDepth).1.valueAt? file place) ∧
    ((documents.map keyOf).Nodup → ∀ others, Shuffled documents others →
      (∀ file place, Option.Rel Value.Rearranged
        (((build documents).assemble maxDepth).1.valueAt? file place)
        (((build others).assemble maxDepth).1.valueAt? file place)) ∧
      ((∀ file place, (build documents).valueAt? file place = (build others).valueAt? file place) →
        ∀ file place, ((build documents).assemble maxDepth).1.valueAt? file place =
          ((build others).assemble maxDepth).1.valueAt? file place)) := by
  have hbase := sound_build hfit
  have hkeys := fun file place t (ht : (build documents).tokenAt? file place = some t) =>
    mem_tokenKeys hfit.keysDistinct ht
  have hbound : (build documents).tokenKeys.length ≤ Assembly.hopsWithin maxDepth := by
    rw [length_tokenKeys, Assembly.hopsWithin]
    omega
  have hwhole := outcome_assemble hbase hkeys hbound
  refine ⟨?_, fun file => ?_, fun hfiles others hshuffled => ?_⟩
  · obtain ⟨problems, hproblems, hfilled⟩ := hwhole.filled
    exact ⟨problems, hproblems, fun file place t ht => hfilled file place t trivial ht⟩
  · have hone := outcome_assembleFile hbase hkeys hbound file
    obtain ⟨problems, hproblems, -⟩ := hone.filled
    refine ⟨⟨problems, hproblems⟩, fun place => ?_⟩
    rw [hone.values file place rfl, hwhole.values file place trivial]
  · have halike := alike_of_shuffled hfit.keysDistinct hfiles hshuffled
    have hother := sound_of_shuffled hfit hfiles hshuffled
    have hagain := outcome_assemble hother (fun file place u hu => by
      obtain ⟨t, ht, hpath, -⟩ := (halike.symm Value.respected_rearranged).exists_token hu
      rw [hpath]
      exact hkeys file place t ht) hbound
    refine ⟨Outcome.rel_valueAt? Value.respected_rearranged halike hwhole hagain, fun hsame => ?_⟩
    have hequal : Alike Eq (build documents) (build others) := by
      refine ⟨halike.fileOf, fun file place => rel_imp (fun t u ht hu h => ⟨h.1, ?_⟩)
        (halike.tokens file place)⟩
      have hvalue := hsame file place
      rw [valueAt?, valueAt?, ht, hu] at hvalue
      exact Option.some.inj hvalue
    intro file place
    have hrel := Outcome.rel_valueAt? Value.respected_eq hequal hwhole hagain file place
    exact rel_eq hrel

/-- Two files: a size and a list that takes it over, together with a part of a token that
points at itself. -/
def sizeFiles : Table String Value :=
  [("list.json", .object [
      ("both", .object [("$value", .list [
        .object [("$ref", .text "size.json#/size/$value/unit")],
        .object [("$ref", .text "#/loop")]])]),
      ("loop", .object [("$value", .object [("again", .object [("$ref", .text "#/loop")])])])]),
    ("size.json", .object [
      ("size", .object [("$value", .object [("amount", .int 4), ("unit", .text "px")])])])]

/-- The same files in another order, with their entries in another order. -/
def shuffledSizeFiles : Table String Value :=
  [("size.json", .object [
      ("size", .object [("$value", .object [("unit", .text "px"), ("amount", .int 4)])])]),
    ("list.json", .object [
      ("loop", .object [("$value", .object [("again", .object [("$ref", .text "#/loop")])])]),
      ("both", .object [("$value", .list [
        .object [("$ref", .text "size.json#/size/$value/unit")],
        .object [("$ref", .text "#/loop")]])])])]

theorem assemble_fills_sizeFiles :
    Fit sizeFiles ∧ ((build sizeFiles).tokenCount : Int) ≤ 3 ∧ (sizeFiles.map keyOf).Nodup ∧
      Shuffled sizeFiles shuffledSizeFiles ∧
      (∃ problems, ((build sizeFiles).assemble 3).2 = .ok problems ∧
        ∀ file place t, (build sizeFiles).tokenAt? file place = some t →
          ∃ u, ((build sizeFiles).assemble 3).1.tokenAt? file place = some u ∧
            (build sizeFiles).Filled file place t u problems) ∧
      ∀ file place, Option.Rel Value.Rearranged
        (((build sizeFiles).assemble 3).1.valueAt? file place)
        (((build shuffledSizeFiles).assemble 3).1.valueAt? file place) := by
  have hfit : Fit sizeFiles :=
    ⟨by decide +kernel, by decide +kernel, by decide +kernel, by decide +kernel⟩
  have hcount : ((build sizeFiles).tokenCount : Int) ≤ 3 := by decide +kernel
  have hfiles : (sizeFiles.map keyOf).Nodup := by decide +kernel
  have hshuffled : Shuffled sizeFiles shuffledSizeFiles := by
    refine ⟨_, List.Perm.swap _ _ _, .cons ⟨rfl, ?_⟩ (.cons ⟨rfl, ?_⟩ .nil)⟩
    · refine @Value.Rearranged.member [] [] _ _ _ (@Value.Rearranged.member [] [] _ _ _ ?_)
      exact .moved (by decide) (.swap _ _ _)
    · exact .moved (by decide) (.swap _ _ _)
  obtain ⟨hfilled, -, hrelated⟩ := assemble_fills sizeFiles 3 hfit hcount
  exact ⟨hfit, hcount, hfiles, hshuffled, hfilled,
    (hrelated hfiles shuffledSizeFiles hshuffled).1⟩

end Project

end DesignTokens

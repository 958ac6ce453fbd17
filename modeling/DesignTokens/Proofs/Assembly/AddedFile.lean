import DesignTokens.Proofs.Assembly.Documents
import DesignTokens.Proofs.Graph.Extension
import DesignTokens.Proofs.Merge.Overlay

/-!
# One more file in a project

A file under a new key stands behind the files that are there.  If no pointer of theirs names
it (`Project.Unrelated`), every name in them leads where it led before (`Unrelated.file?_add`),
so the files depend on each other as before, and the new file is assembled after all others
(`Unrelated.exists_assemblyOrder_add`).  The others keep their order unless the new file names
itself: then there is a cycle, and they have their turns as they stand.
-/

namespace DesignTokens

/-- The pointers of a file that its place in the order depends on, and those that are followed. -/
def TokenFile.pointers (g : TokenFile) : List String :=
  g.crossReferences ++ g.tree.tokens.flatMap fun t => t.value.outerPointers

namespace Project

variable {p : Project} {f g : TokenFile} {key name ref : String} {q : Pointer} {place : Place}
  {t : Token}

/-- A project whose files stand under their own keys, each once, with trees of distinct keys. -/
structure Keyed (p : Project) : Prop where
  nodup : p.files.keys.Nodup
  path : ∀ key g, p.files.get? key = some g → g.path = key
  distinct : ∀ key g, p.files.get? key = some g → g.tree.KeysDistinct

theorem keyed_build {documents : Table String Value} (h : ∀ d ∈ documents, d.2.KeysDistinct) :
    (build documents).Keyed where
  nodup := by
    unfold build
    refine List.foldlRecOn documents _ (motive := fun p : Project => p.files.keys.Nodup)
      List.nodup_nil fun p hp d _ => ?_
    exact Table.nodup_keys_put hp
  path key g hg := by
    rw [build_eq] at hg
    obtain ⟨d, -, he⟩ := List.mem_map.mp (Table.mem_of_get?_ofPairs hg)
    obtain ⟨rfl, rfl⟩ := Prod.mk.inj he
    rfl
  distinct key g hg := by
    rw [build_eq] at hg
    obtain ⟨d, hd, he⟩ := List.mem_map.mp (Table.mem_of_get?_ofPairs hg)
    obtain ⟨rfl, rfl⟩ := Prod.mk.inj he
    exact Group.keysDistinct_build (h d hd)

theorem Keyed.exists_file (hp : p.Keyed) (ht : p.tokenAt? key place = some t) :
    ∃ g, p.files.get? key = some g ∧ ∀ ref ∈ t.value.outerPointers, ref ∈ g.pointers := by
  obtain ⟨tree, htree, hat⟩ := Option.bind_eq_some_iff.mp ht
  obtain ⟨g, hg, rfl⟩ := Option.map_eq_some_iff.mp htree
  have hm := (Group.mem_tokens_iff (hp.distinct key g hg)).mpr ⟨place, hat⟩
  exact ⟨g, hg, fun ref href => List.mem_append_right _ (List.mem_flatMap.mpr ⟨t, hm, href⟩)⟩

theorem Keyed.of_tokens (hp : p.Keyed) {P : Token → Prop}
    (h : ∀ f ∈ p.files, ∀ t ∈ f.2.tree.tokens, P t) (ht : p.tokenAt? key place = some t) : P t := by
  obtain ⟨tree, htree, hat⟩ := Option.bind_eq_some_iff.mp ht
  obtain ⟨g, hg, rfl⟩ := Option.map_eq_some_iff.mp htree
  exact h _ (Table.mem_of_get? hg) t
    ((Group.mem_tokens_iff (hp.distinct key g hg)).mpr ⟨place, hat⟩)

theorem Keyed.get?_of_file? (hp : p.Keyed) {base : Option String}
    (hg : p.file? name base = some g) :
    p.files.get? g.path = some g := by
  have hget : ∃ key, p.files.get? key = some g := by
    unfold file? at hg
    split at hg
    · rename_i hroot
      exact ⟨_, hroot.trans hg⟩
    · cases hg
    · exact ⟨_, hg⟩
  obtain ⟨other, hother⟩ := hget
  exact hp.path other g hother ▸ hother

theorem build_append (documents : Table String Value) (name : String) (document : Value) :
    build (documents ++ [(name, document)]) =
      (build documents).add (TokenFile.build name document) := by
  unfold build
  rw [List.foldl_append]
  rfl

/-- A file under a new key that no pointer of a project names. -/
structure Unrelated (p : Project) (f : TokenFile) : Prop where
  fresh : f.path ∉ p.files.keys
  unnamed : ∀ e ∈ p.files, ∀ ref ∈ e.2.pointers, (p.add f).targetOf? e.2 ref ≠ some f.path

/-- A further file that has a pointer to itself by its name. -/
def NamesItself (p : Project) (f : TokenFile) : Prop :=
  ∃ ref ∈ f.crossReferences, (p.add f).targetOf? f ref = some f.path

theorem files_add (h : f.path ∉ p.files.keys) : (p.add f).files = p.files ++ [(f.path, f)] :=
  Table.put_of_not_mem f h

theorem get?_add_of_ne (hkey : key ≠ f.path) : (p.add f).files.get? key = p.files.get? key :=
  Table.get?_put_of_ne _ _ hkey

theorem get?_add_self : (p.add f).files.get? f.path = some f := Table.get?_put_self _ _ _

theorem targetOf?_of_parse (hq : Pointer.parse ref = .ok q) (hname : q.file = some name) :
    p.targetOf? g ref = some (((p.file? name (some g.path)).map TokenFile.path).getD
      (FilePath.fileKey name (some g.path))) := by
  obtain ⟨raw, file, segments⟩ := q
  obtain rfl : file = some name := hname
  unfold targetOf?
  rw [hq]

namespace Unrelated

variable (h : p.Unrelated f)

include h

theorem ne_of_get? (hg : p.files.get? key = some g) : key ≠ f.path := by
  rintro rfl
  exact h.fresh (List.mem_map_of_mem (Table.mem_of_get? hg))

theorem targetOf?_ne (hg : p.files.get? key = some g) (href : ref ∈ g.pointers) :
    (p.add f).targetOf? g ref ≠ some f.path :=
  h.unnamed _ (Table.mem_of_get? hg) ref href

/-- **Every name in a file leads where it led before.** -/
theorem file?_add (hp : p.Keyed) (hg : p.files.get? key = some g) (href : ref ∈ g.pointers)
    (hq : Pointer.parse ref = .ok q) (hname : q.file = some name) {base : Option String}
    (hbase : ∀ other, base = some other → other = key) :
    (p.add f).file? name base = p.file? name base := by
  obtain rfl := hp.path key g hg
  have hother : ∀ other, (p.add f).file? name (some g.path) = some other →
      other.path ≠ f.path := by
    intro other hfound hpath
    refine h.targetOf?_ne hg href ?_
    rw [targetOf?_of_parse hq hname, hfound]
    exact congrArg some hpath
  -- Where one of the two readings of the name led to the new file, the pointer would name it.
  have hroot : FilePath.fileKey name none ≠ f.path := by
    intro hroot
    refine hother f ?_ rfl
    unfold file?
    rw [hroot, get?_add_self]
  unfold file? at hother ⊢
  rw [get?_add_of_ne hroot] at hother ⊢
  cases hfound : p.files.get? (FilePath.fileKey name none) with
  | some other => rfl
  | none =>
    rw [hfound] at hother
    cases base with
    | none => rfl
    | some near =>
      obtain rfl := hbase near rfl
      dsimp only at hother ⊢
      refine get?_add_of_ne fun hnear => ?_
      rw [hnear] at hother
      exact hother f get?_add_self rfl

theorem fileOf?_add (hp : p.Keyed) (hg : p.files.get? key = some g) (href : ref ∈ g.pointers)
    (hq : Pointer.parse ref = .ok q) : (p.add f).fileOf? q key = p.fileOf? q key := by
  unfold fileOf?
  cases hname : q.file with
  | none => rfl
  | some name =>
    dsimp only
    rw [h.file?_add hp hg href hq hname fun other hother => ?_]
    · rfl
    · unfold fileName? at hother
      split at hother
      · cases hother
      · exact (Option.some.inj hother).symm

theorem ne_of_fileOf? (hp : p.Keyed) (hkey : key ≠ f.path) {target : String}
    (htarget : p.fileOf? q key = some target) : target ≠ f.path := by
  unfold fileOf? at htarget
  split at htarget
  · exact Option.some.inj htarget ▸ hkey
  · split at htarget
    · obtain ⟨found, hfound, rfl⟩ := Option.map_eq_some_iff.mp htarget
      exact h.ne_of_get? (hp.get?_of_file? hfound)
    · cases htarget

theorem targetOf?_add (hp : p.Keyed) (hg : p.files.get? key = some g)
    (href : ref ∈ g.pointers) : (p.add f).targetOf? g ref = p.targetOf? g ref := by
  cases hq : Pointer.parse ref with
  | error fault =>
    unfold targetOf?
    rw [hq]
  | ok q =>
    cases hname : q.file with
    | none =>
      obtain ⟨raw, file, segments⟩ := q
      obtain rfl : file = none := hname
      unfold targetOf?
      rw [hq]
    | some name =>
      rw [targetOf?_of_parse hq hname, targetOf?_of_parse hq hname, hp.path key g hg,
        h.file?_add hp hg href hq hname fun _ he => (Option.some.inj he).symm]

theorem dependencies_add (hp : p.Keyed) : (p.add f).dependencies = p.dependencies ++
    [(f.path, (f.crossReferences.filterMap ((p.add f).targetOf? f)).eraseDups)] := by
  have hold : p.files.map (fun e => (e.1,
      (e.2.crossReferences.filterMap ((p.add f).targetOf? e.2)).eraseDups)) = p.dependencies := by
    refine List.map_congr_left fun e he => ?_
    have hg := Table.get?_of_mem hp.nodup he
    exact congrArg (fun targets => (e.1, targets.eraseDups))
      (List.filterMap_congr fun ref href =>
        h.targetOf?_add hp hg (List.mem_append_left _ href))
  unfold dependencies at hold ⊢
  rw [files_add h.fresh, List.map_append]
  exact congrArg (· ++ _) hold

theorem not_occurs (hp : p.Keyed) : ¬ p.dependencies.Occurs f.path := by
  rintro ⟨row, hrow, hsource | htarget⟩
  · obtain ⟨e, he, rfl⟩ := List.mem_map.mp hrow
    exact h.fresh (hsource ▸ List.mem_map_of_mem he)
  · obtain ⟨e, he, rfl⟩ := List.mem_map.mp hrow
    obtain ⟨ref, href, hnamed⟩ := List.mem_filterMap.mp (List.mem_eraseDups.mp htarget)
    have href : ref ∈ e.2.pointers := List.mem_append_left _ href
    refine h.unnamed e he ref href ?_
    rw [h.targetOf?_add hp (Table.get?_of_mem hp.nodup he) href]
    exact hnamed

/-- Behind the files of a project the new file is the only one of the files that are assembled. -/
theorem filter_tail {order tail : List String} (hp : p.Keyed)
    (horder : p.fileOrder.order = some order)
    (hlonger : (p.add f).fileOrder.order = some (order ++ tail)) :
    (tail.filter fun key => (p.add f).files.has key) = [f.path] := by
  have hnodup := Graph.order_nodup hlonger
  have hmem : f.path ∈ tail := by
    have hoccurs : (p.add f).dependencies.Occurs f.path := by
      rw [h.dependencies_add hp]
      exact ⟨_, List.mem_append_right _ List.mem_cons_self, Or.inl rfl⟩
    refine (List.mem_append.mp ((Graph.mem_order_iff hlonger).mpr hoccurs)).resolve_left ?_
    exact fun hm => h.not_occurs hp ((Graph.mem_order_iff horder).mp hm)
  have hkeep : ∀ key ∈ tail, (p.add f).files.has key = decide (key = f.path) := by
    intro key hkey
    by_cases hself : key = f.path
    · rw [hself, decide_eq_true rfl]
      exact Option.isSome_iff_exists.mpr ⟨f, get?_add_self⟩
    · rw [decide_eq_false hself, Table.has, get?_add_of_ne hself]
      cases hg : p.files.get? key with
      | none => rfl
      | some g =>
        have hoccurs : p.dependencies.Occurs key :=
          ⟨_, List.mem_map.mpr ⟨(key, g), Table.mem_of_get? hg, rfl⟩, Or.inl rfl⟩
        exact absurd hkey fun hm => (List.nodup_append.mp hnodup).2.2 key
          ((Graph.mem_order_iff horder).mpr hoccurs) key hm rfl
  rw [List.filter_congr hkeep, List.filter_eq,
    List.count_eq_one_of_mem (List.nodup_append.mp hnodup).2.1 hmem]
  rfl

theorem assemblyOrder_add_of_none (hnone : (p.add f).fileOrder.order = none) :
    (p.add f).assemblyOrder = p.files.keys ++ [f.path] := by
  unfold assemblyOrder
  rw [hnone]
  exact Table.keys_put_of_not_mem _ _ h.fresh

/-- Where there is an order of the files with the new one, the others keep theirs. -/
theorem assemblyOrder_add_of_some (hp : p.Keyed) {order tail : List String}
    (horder : p.fileOrder.order = some order)
    (hlonger : (p.add f).fileOrder.order = some (order ++ tail)) :
    (p.add f).assemblyOrder = p.assemblyOrder ++ [f.path] := by
  unfold assemblyOrder
  rw [hlonger, horder]
  dsimp only
  rw [List.filter_append, h.filter_tail hp horder hlonger]
  congr 1
  refine List.filter_congr fun key hkey => ?_
  have hne : key ≠ f.path := fun he =>
    h.not_occurs hp ((Graph.mem_order_iff horder).mp (he ▸ hkey))
  rw [Table.has, Table.has, get?_add_of_ne hne]

/-- **The new file is assembled last.**  The others keep their order, unless the new file names
itself and they have an order. -/
theorem exists_assemblyOrder_add (hp : p.Keyed) :
    ∃ front, (p.add f).assemblyOrder = front ++ [f.path] ∧
      (front = p.assemblyOrder ∨ front = p.files.keys ∧ p.fileOrder.order ≠ none ∧
        p.NamesItself f) := by
  have hnew := h.not_occurs hp
  have hadded : (p.add f).fileOrder = Graph.findCycles (p.dependencies ++
      [(f.path, (f.crossReferences.filterMap ((p.add f).targetOf? f)).eraseDups)]) :=
    congrArg Graph.findCycles (h.dependencies_add hp)
  cases horder : p.fileOrder.order with
  | none =>
    have hnone : (p.add f).fileOrder.order = none :=
      hadded ▸ Graph.order_append_of_none hnew horder
    refine ⟨_, h.assemblyOrder_add_of_none hnone, Or.inl ?_⟩
    unfold assemblyOrder
    rw [horder]
  | some order =>
    have hnames : f.path ∈ (f.crossReferences.filterMap ((p.add f).targetOf? f)).eraseDups ↔
        p.NamesItself f := List.mem_eraseDups.trans List.mem_filterMap
    by_cases hself : p.NamesItself f
    · have hnone : (p.add f).fileOrder.order = none :=
        hadded ▸ Graph.order_append_of_self hnew (hnames.mpr hself)
      exact ⟨_, h.assemblyOrder_add_of_none hnone, Or.inr ⟨rfl, nofun, hself⟩⟩
    · obtain ⟨longer, hlonger⟩ := Option.isSome_iff_exists.mp (Graph.isSome_order_append hnew
        (mt hnames.mp hself) (Option.isSome_iff_exists.mpr ⟨order, horder⟩))
      obtain ⟨tail, rfl⟩ := Graph.order_append hnew horder hlonger
      exact ⟨_, h.assemblyOrder_add_of_some hp horder (hadded ▸ hlonger), Or.inl rfl⟩

end Unrelated

end Project

end DesignTokens

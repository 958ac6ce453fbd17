import DesignTokens.Proofs.Assembly.Confined
import DesignTokens.Proofs.Assembly.Documents
import DesignTokens.Proofs.Assembly.Undisturbed

/-!
# Files have their turns after those that they name

Every file has one turn (`Project.assemblyOrder_perm`).  A pointer that is recorded in a token is
recorded with its file, and the file that it names is found in the same way when the order is made
and when the pointer is followed (`Project.edge_of_names`).  So, where the files do not depend on
each other in a circle, a file has its turn after all files that it names
(`Project.mem_before_of_names`), and nothing in it has changed until then
(`Project.Turn.tree?_eq`).

The turns are all taken unless a segment that cannot be read ends the work
(`Project.assemble_in_turn`).  Where that happens, the files that are left have no turn
(`Project.not_assembled_of_superscript`).
-/

namespace DesignTokens

/-! ### What is recorded -/

namespace TokenFile

theorem mem_sortedDistinct {texts : List String} {s : String} :
    s ∈ sortedDistinct texts ↔ s ∈ texts := by
  unfold sortedDistinct
  rw [List.mem_eraseDups, List.mem_mergeSort]

end TokenFile

theorem Pointer.isCrossReference_of_parse {ref name : String} {q : Pointer}
    (hq : parse ref = .ok q) (hname : q.file = some name) :
    TokenFile.isCrossReference ref = true := by
  unfold parse at hq
  unfold TokenFile.isCrossReference
  split at hq
  · cases hq
  · rename_i file key keys hcut
    dsimp only at hq
    split at hq
    · cases hq
    · obtain rfl := Except.ok.inj hq
      rw [hcut]
      dsimp only at hname ⊢
      split at hname
      · cases hname
      · rename_i hempty
        simpa using hempty
  · cases hq

namespace Project

variable {p : Project} {documents : Table String Value} {file target name : String}

/-- A project whose tokens hold the pointers of their values and whose files hold those of them that
lead to other files. -/
structure Recorded (p : Project) : Prop where
  keyed : p.Keyed
  scanned : ∀ file place t, p.tokenAt? file place = some t → t.Scanned
  recorded : ∀ file g place t, p.files.get? file = some g → g.tree.tokenAt? place = some t →
    ∀ ref ∈ t.pointers, TokenFile.isCrossReference ref = true → ref ∈ g.crossReferences

/-- **The project of any documents is recorded.** -/
theorem recorded_build (hkeys : ∀ d ∈ documents, d.2.KeysDistinct) :
    (build documents).Recorded where
  keyed := keyed_build hkeys
  scanned file place t ht := by
    obtain ⟨tree, htree, hat⟩ := Option.bind_eq_some_iff.mp ht
    obtain ⟨d, -, -, rfl, -⟩ := exists_of_tree?_build htree
    obtain ⟨name, members, parent, inherited, rfl⟩ := Group.tokenAt?_build hat
    exact Token.scanned_build _ _ _ _ _
  recorded file g place t hg ht ref href hcross := by
    obtain ⟨d, hd, -, rfl⟩ := exists_of_get?_build hg
    have hm : t ∈ (Group.build d.2).tokens :=
      (Group.mem_tokens_iff (Group.keysDistinct_build (hkeys d hd))).mpr ⟨place, ht⟩
    exact TokenFile.mem_sortedDistinct.mpr (List.mem_filter.mpr
      ⟨List.mem_flatMap.mpr ⟨t, hm, href⟩, hcross⟩)

/-- A pointer that is recorded in a token of a file names a file that is loaded. -/
def Names (p : Project) (file target : String) : Prop :=
  ∃ place t ref q name, p.tokenAt? file place = some t ∧ ref ∈ t.pointers ∧
    Pointer.parse ref = .ok q ∧ q.file = some name ∧ p.fileOf? q file = some target

theorem file?_fileName? (p : Project) (name key : String) :
    p.file? name (fileName? key) = p.file? name (some key) := by
  unfold fileName?
  split
  · rename_i hkey
    subst hkey
    unfold file?
    cases hroot : p.files.get? (FilePath.fileKey name none) with
    | some found => rfl
    | none => exact hroot.symm
  · rfl

theorem keys_dependencies (p : Project) : Table.keys p.dependencies = p.files.keys := by
  unfold dependencies Table.keys
  rw [List.map_map]
  rfl

/-- A file depends on the files that its recorded pointers name. -/
theorem edge_of_crossReference (hp : p.Keyed) {g : TokenFile} {ref : String} {q : Pointer}
    (hg : p.files.get? file = some g) (href : ref ∈ g.crossReferences)
    (hq : Pointer.parse ref = .ok q) (hname : q.file = some name)
    (htarget : p.fileOf? q file = some target) : p.dependencies.Edge file target := by
  have hnamed : p.targetOf? g ref = some target := by
    unfold fileOf? at htarget
    rw [hname] at htarget
    dsimp only at htarget
    split at htarget
    · rw [file?_fileName?] at htarget
      rw [targetOf?_of_parse hq hname, hp.path file g hg, htarget]
      rfl
    · cases htarget
  have hrow : (file, (g.crossReferences.filterMap (p.targetOf? g)).eraseDups) ∈ p.dependencies :=
    List.mem_map.mpr ⟨_, Table.mem_of_get? hg, rfl⟩
  have hnodup : (Table.keys p.dependencies).Nodup := p.keys_dependencies ▸ hp.nodup
  unfold Graph.Edge Graph.targets
  rw [Table.get?_of_mem hnodup hrow]
  exact List.mem_eraseDups.mpr (List.mem_filterMap.mpr ⟨ref, href, hnamed⟩)

/-- **A file depends on the files that the pointers of its tokens name.** -/
theorem edge_of_names (hp : p.Recorded) (h : p.Names file target) :
    p.dependencies.Edge file target := by
  obtain ⟨place, t, ref, q, name, ht, href, hq, hname, htarget⟩ := h
  obtain ⟨tree, htree, hat⟩ := Option.bind_eq_some_iff.mp ht
  obtain ⟨g, hg, rfl⟩ := Option.map_eq_some_iff.mp htree
  have hcross := Pointer.isCrossReference_of_parse hq hname
  exact edge_of_crossReference hp.keyed hg (hp.recorded file g place t hg hat ref href hcross) hq
    hname htarget

theorem mem_keys_of_names (hp : p.Keyed) (h : p.Names file target) : target ∈ p.files.keys := by
  obtain ⟨place, t, ref, q, name, -, -, -, hname, htarget⟩ := h
  unfold fileOf? at htarget
  rw [hname] at htarget
  dsimp only at htarget
  split at htarget
  · obtain ⟨found, hfound, rfl⟩ := Option.map_eq_some_iff.mp htarget
    exact List.mem_map_of_mem (Table.mem_of_get? (hp.get?_of_file? hfound))
  · cases htarget

/-! ### The order -/

theorem nodup_assemblyOrder (hp : p.Keyed) : p.assemblyOrder.Nodup := by
  unfold assemblyOrder
  cases horder : p.fileOrder.order with
  | none => exact hp.nodup
  | some order => exact (Graph.order_nodup horder).filter _

/-- **Every file stands once in the order in which the files are assembled.** -/
theorem assemblyOrder_perm (hp : p.Keyed) : p.assemblyOrder.Perm p.files.keys :=
  (List.perm_ext_iff_of_nodup (nodup_assemblyOrder hp) hp.nodup).mpr fun _ =>
    ⟨mem_keys_of_mem_assemblyOrder, mem_assemblyOrder⟩

theorem mem_of_standsBefore {order before after : List String} {u v : String}
    (h : Graph.StandsBefore order v u) (hnodup : order.Nodup)
    (hsplit : order = before ++ u :: after) : v ∈ before := by
  obtain ⟨first, between, last, rfl⟩ := h
  rw [hsplit] at hnodup
  obtain ⟨hnot, -⟩ := List.nodup_cons.mp (List.nodup_middle.mp hnodup)
  obtain ⟨hbefore, hafter⟩ := not_or.mp (mt List.mem_append.mpr hnot)
  have hsame : before ++ u :: after = (first ++ v :: between) ++ u :: last := by
    rw [← hsplit, List.append_assoc, List.cons_append]
  obtain ⟨rfl, -⟩ := (List.append_cons_inj_of_notMem hbefore hafter).mp hsame
  exact List.mem_append_right _ List.mem_cons_self

theorem standsBefore_filter {order : List String} {u v : String} {k : String → Bool}
    (h : Graph.StandsBefore order v u) (hv : k v = true) (hu : k u = true) :
    Graph.StandsBefore (order.filter k) v u := by
  obtain ⟨first, between, last, rfl⟩ := h
  refine ⟨first.filter k, between.filter k, last.filter k, ?_⟩
  rw [List.filter_append, List.filter_cons_of_pos hv, List.filter_append,
    List.filter_cons_of_pos hu]

section

variable (hp : p.Recorded) (hacyclic : ∀ file, ¬ p.dependencies.Leads file file)

include hp hacyclic

/-- **A file that is named stands before the one that names it.** -/
theorem mem_before_of_names {before after : List String}
    (horder : p.assemblyOrder = before ++ file :: after) (hnames : p.Names file target) :
    target ∈ before := by
  obtain ⟨order, hsome⟩ := Option.isSome_iff_exists.mp (Graph.order_isSome_iff.mpr hacyclic)
  have hfile : file ∈ p.files.keys :=
    mem_keys_of_mem_assemblyOrder (horder ▸ List.mem_append_right _ List.mem_cons_self)
  have hfilter : p.assemblyOrder = order.filter fun key => p.files.has key := by
    unfold assemblyOrder fileOrder
    rw [hsome]
  have hstands := standsBefore_filter (Graph.standsBefore_of_edge hsome (edge_of_names hp hnames))
    (k := fun key => p.files.has key)
    ((Table.has_iff_mem_keys _ _).mpr (mem_keys_of_names hp.keyed hnames))
    ((Table.has_iff_mem_keys _ _).mpr hfile)
  exact mem_of_standsBefore (hfilter ▸ hstands) (nodup_assemblyOrder hp.keyed) horder

/-- Where every `$ref` member is a text, the pointers of the files before a file lead to these
files. -/
theorem encloses_before
    (htexts : ∀ other place t, p.tokenAt? other place = some t → t.value.RefsAreTexts)
    {before after : List String} (horder : p.assemblyOrder = before ++ file :: after) :
    p.Encloses {other | other ∈ before} := by
  intro other hother place t ht ref href q target hq htarget
  cases hname : q.file with
  | none =>
    unfold fileOf? at htarget
    rw [hname] at htarget
    exact Option.some.inj htarget ▸ hother
  | some name =>
    have hrecorded : ref ∈ t.pointers := (hp.scanned other place t ht).pointers ▸
      Value.mem_pointers_iff.mpr (Value.mem_occurrences_of_outer (htexts other place t ht) href)
    obtain ⟨first, last, rfl⟩ := List.append_of_mem hother
    rw [List.append_assoc, List.cons_append] at horder
    exact List.mem_append_left _ (mem_before_of_names hp hacyclic horder
      ⟨place, t, ref, q, name, ht, hrecorded, hq, hname, htarget⟩)

end

/-! ### Turns -/

/-- A file has its turn in a state: the files before it have had theirs. -/
structure Turn (p : Project) (maxDepth : Int) (before : List String) (file : String)
    (after : List String) (s : Assembly) : Prop where
  order : p.assemblyOrder = before ++ file :: after
  run : (Assembly.assembleFiles before).run.run (Assembly.start p maxDepth) = (.ok (), s)

variable {maxDepth : Int} {before after : List String} {s : Assembly}

theorem Turn.assemble_eq (h : p.Turn maxDepth before file after s) :
    p.assemble maxDepth = finish ((Assembly.assembleFiles (file :: after)).run.run s) := by
  unfold assemble
  rw [h.order, Assembly.assembleFiles_append, ExceptT.run_bind, StateT.run_bind, h.run]
  rfl

/-- **Until the turn of a file nothing in it changes.** -/
theorem Turn.tree?_eq (h : p.Turn maxDepth before file after s) (hp : p.Recorded)
    (hacyclic : ∀ file, ¬ p.dependencies.Leads file file)
    (htexts : ∀ other place t, p.tokenAt? other place = some t → t.value.RefsAreTexts) :
    s.project.tree? file = p.tree? file := by
  have hwithin : ∀ other ∈ before, other ∈ {other | other ∈ before} := fun _ hm => hm
  have hkept := Assembly.keeps_confined_assembleFiles (encloses_before hp hacyclic htexts h.order)
    hwithin _ (Assembly.confined_start _ _ maxDepth)
  rw [h.run] at hkept
  refine hkept.kept.others file fun hmem => ?_
  have hnodup := nodup_assemblyOrder hp.keyed
  rw [h.order] at hnodup
  exact (List.nodup_cons.mp (List.nodup_middle.mp hnodup)).1 (List.mem_append_left _ hmem)

theorem Turn.fileOf_eq_ok_iff (h : p.Turn maxDepth before file after s) {q : Pointer} :
    s.fileOf q file = .ok target ↔ p.fileOf? q file = some target := by
  rw [Assembly.fileOf_eq_ok_iff, (Assembly.beside_of_run h.run).fileOf?_eq]

/-- **Every file is assembled once, and after the files that it names**, above all in the project of
any documents (`recorded_build`).  Each file stands once in the order, and if no segment ends the
work and the limit can be written, it has its turn there; the assembly goes on from the state in
which the turn begins.  Where the files do not depend on each other in a circle, all loaded files
that the recorded pointers of its tokens name have had their turns by then, and if the `$ref`
members are texts, none of its tokens has changed. -/
theorem assemble_in_turn (hp : p.Recorded) (maxDepth : Int) :
    (p.files.keys.Nodup ∧ p.assemblyOrder.Perm p.files.keys) ∧
    (p.Readable → isWritable maxDepth = true →
      (∃ problems, (p.assemble maxDepth).2 = .ok problems) ∧
      ∀ before file after, p.assemblyOrder = before ++ file :: after →
        ∃ s, p.Turn maxDepth before file after s) ∧
    ∀ before file after s, p.Turn maxDepth before file after s →
      p.assemble maxDepth = finish ((Assembly.assembleFiles (file :: after)).run.run s) ∧
      ((∀ other, ¬ p.dependencies.Leads other other) →
        (∀ place t, p.tokenAt? file place = some t → ∀ ref ∈ t.pointers,
          ∀ q name target, Pointer.parse ref = .ok q → q.file = some name →
            s.fileOf q file = .ok target → target ∈ before) ∧
        ((∀ other place t, p.tokenAt? other place = some t → t.value.RefsAreTexts) →
          s.project.tree? file = p.tree? file)) := by
  refine ⟨⟨hp.keyed.nodup, assemblyOrder_perm hp.keyed⟩, fun hreadable hlimit => ⟨?_, ?_⟩, ?_⟩
  · obtain ⟨s, hrun⟩ := hreadable.exists_run hlimit p.assemblyOrder
    exact ⟨s.problems, congrArg Prod.snd (finish_of_run hrun)⟩
  · intro before file after horder
    obtain ⟨s, hrun⟩ := hreadable.exists_run hlimit before
    exact ⟨s, horder, hrun⟩
  · intro before file after s hturn
    refine ⟨hturn.assemble_eq, fun hacyclic => ⟨?_, hturn.tree?_eq hp hacyclic⟩⟩
    intro place t ht ref href q name target hq hname htarget
    exact mem_before_of_names hp hacyclic hturn.order
      ⟨place, t, ref, q, name, ht, href, hq, hname, hturn.fileOf_eq_ok_iff.mp htarget⟩

/-- Three files in two directories: each names another one in its own way, and the last one names a
file that is not there. -/
def layers : Table String Value :=
  [("themes/dark.json", .object [
      ("back", .object [(valueKey, .object [("$ref", .text "base.json#/ink")])])]),
    ("./themes/base.json", .object [
      ("ink", .object [(valueKey, .object [("$ref", .text "../palette.json#/black")])])]),
    ("palette.json", .object [("black", .object [(valueKey, .text "#000")]),
      ("lost", .object [(valueKey, .object [("$ref", .text "gone.json#/x")])])])]

theorem assemble_in_turn_layers :
    (build layers).Recorded ∧ (build layers).Readable ∧ isWritable 10 = true ∧
      (∀ other, ¬ (build layers).dependencies.Leads other other) ∧
      (∀ other place t, (build layers).tokenAt? other place = some t → t.value.RefsAreTexts) ∧
      (build layers).assemblyOrder.Perm ["themes/dark.json", "themes/base.json", "palette.json"] ∧
      ∃ s t q, (build layers).Turn 10 ["palette.json", "themes/base.json"] "themes/dark.json" [] s ∧
        (build layers).tokenAt? "themes/dark.json" ["back"] = some t ∧
        "base.json#/ink" ∈ t.pointers ∧ Pointer.parse "base.json#/ink" = .ok q ∧
        s.fileOf q "themes/dark.json" = .ok "themes/base.json" ∧
        "themes/base.json" ∈ ["palette.json", "themes/base.json"] ∧
        s.project.tree? "themes/dark.json" = (build layers).tree? "themes/dark.json" := by
  have hp : (build layers).Recorded := recorded_build (by decide +kernel)
  have hreadable : (build layers).Readable := fun file place t ht =>
    hp.keyed.of_tokens (P := fun t => ∀ ref ∈ t.value.outerPointers, Pointer.isReadable ref = true)
      (by decide +kernel) ht
  have htexts : ∀ other place t, (build layers).tokenAt? other place = some t →
      t.value.RefsAreTexts := fun other place t ht =>
    hp.keyed.of_tokens (P := fun t => t.value.RefsAreTexts) (by decide +kernel) ht
  have hacyclic : ∀ other, ¬ (build layers).dependencies.Leads other other :=
    Graph.order_isSome_iff.mp (by decide +kernel)
  obtain ⟨⟨-, hperm⟩, hturns, hbegun⟩ := assemble_in_turn hp 10
  have hlimit : isWritable 10 = true := by decide +kernel
  obtain ⟨-, hturns⟩ := hturns hreadable hlimit
  obtain ⟨s, hturn⟩ := hturns ["palette.json", "themes/base.json"] "themes/dark.json" []
    (by decide +kernel)
  obtain ⟨hnamed, hsame⟩ := (hbegun _ _ _ s hturn).2 hacyclic
  obtain ⟨t, ht, href⟩ : ∃ t, (build layers).tokenAt? "themes/dark.json" ["back"] = some t ∧
      "base.json#/ink" ∈ t.pointers := ⟨_, rfl, by decide +kernel⟩
  obtain ⟨q, hq, hname, htarget⟩ : ∃ q, Pointer.parse "base.json#/ink" = .ok q ∧
      q.file = some "base.json" ∧
      (build layers).fileOf? q "themes/dark.json" = some "themes/base.json" :=
    ⟨⟨"base.json#/ink", some "base.json", ["ink"]⟩, rfl, rfl, by decide +kernel⟩
  have htarget := hturn.fileOf_eq_ok_iff.mpr htarget
  exact ⟨hp, hreadable, hlimit, hacyclic, htexts, hperm, s, t, q, hturn, ht, href, hq, htarget,
    hnamed ["back"] t ht _ href q _ _ hq hname htarget, hsame htexts⟩

/-- Two files, and in the first one a pointer whose last segment is a digit but no number. -/
def superscriptFirst : Table String Value :=
  [("a.json", .object [("a", .object [(valueKey, .list [.int 1])]),
      ("t", .object [(valueKey, .object [("$ref", .text "#/a/$value/²")])])]),
    ("b.json", .object [("u", .object [(valueKey, .object [("$ref", .text "#/v")])]),
      ("v", .object [(valueKey, .int 2)])])]

/-- **The file behind an unreadable pointer has no turn.** -/
theorem not_assembled_of_superscript :
    (∀ d ∈ superscriptFirst, d.2.KeysDistinct) ∧
      (build superscriptFirst).assemblyOrder = ["a.json", "b.json"] ∧
      (¬ ∃ s, (build superscriptFirst).Turn 10 ["a.json"] "b.json" [] s) ∧
      ((build superscriptFirst).assemble 10).2.toOption.isNone = true ∧
      (((build superscriptFirst).assemble 10).1.tokenAt? "b.json" ["u"]).map Token.pointers =
        some ["#/v"] := by
  refine ⟨by decide +kernel, by decide +kernel, ?_, by decide +kernel, by decide +kernel⟩
  rintro ⟨s, hturn⟩
  have hfails : ((Assembly.assembleFiles ["a.json"]).run.run
      (Assembly.start (build superscriptFirst) 10)).1.toOption.isNone = true := by decide +kernel
  rw [hturn.run] at hfails
  cases hfails

end Project

end DesignTokens

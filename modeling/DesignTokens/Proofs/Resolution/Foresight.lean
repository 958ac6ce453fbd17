import DesignTokens.Proofs.Assembly.Inclusive
import DesignTokens.Proofs.Assembly.LimitedRun
import DesignTokens.Proofs.Resolution.Navigable
import DesignTokens.Proofs.Resolution.Regrouping
import DesignTokens.Proofs.Resolution.Totality

/-!
# What a silent validation says of a run

Validation looks at a tree as it stands.  It takes a token with pointers of its own to have every
part that is asked for, it does not ask whether pointers lead back to where they stand, and it knows
no alias that only comes in where a pointer is replaced.  `Group.Transparent` says of a tree that
nothing is wrong there.

A transparent tree with which validation finds nothing wrong is assembled without a pointer left
(`Group.good_of_silent`), and then every alias leads to a token (`Group.navigable_of_silent`), so a
run finds nothing missing and nothing circular (`Group.run_of_silent_validation`).  References that
go down in some rank make a tree transparent (`Group.transparent_of_goesDown`).
-/

namespace DesignTokens

namespace Group

variable {g tree : Group} {place : Place} {t u : Token} {maxDepth : Int}

/-- The aliases of the token with a path, and those in what it expands to. -/
def Refers (g : Group) (path named : String) : Prop :=
  ∃ place t, g.tokenAt? place = some t ∧ t.path = path ∧
    (named ∈ t.references ∨
      ∃ v, (Project.single g).Expands "" place v ∧ .aliasOf named ∈ v.occurrences)

/-- Inclusion hides nothing from a validation: hops form no cycle, what a pointer picks out of a
token with pointers is there in what that token expands to, and the aliases that are included close
no cycle. -/
structure Transparent (g : Group) : Prop where
  hops : ∀ x, ¬ Relation.TransGen (Project.single g).Leads x x
  parts : ∀ place t, g.tokenAt? place = some t → ∀ ref ∈ t.value.outerPointers,
    ∀ spot u rest whole, (Project.single g).Aims "" ref "" spot rest → g.tokenAt? spot = some u →
      u.pointers ≠ [] → (Project.single g).Expands "" spot whole →
        ∃ w, Pointer.descend ref whole rest = .ok (.ok w)
  aliases : ∀ path, Relation.TransGen g.Refers path path → g.OnCycle path

theorem tokenAt?_single {file : String} (h : (Project.single g).tokenAt? file place = some t) :
    file = "" ∧ g.tokenAt? place = some t := by
  obtain ⟨tree, htree, hat⟩ := Option.bind_eq_some_iff.mp h
  obtain rfl := tree?_single htree
  obtain ⟨f, hf, -⟩ := Option.map_eq_some_iff.mp htree
  have hmem : (file, f) ∈ [("", (⟨"", tree, []⟩ : TokenFile))] := Table.mem_of_get? hf
  exact ⟨congrArg Prod.fst (List.mem_singleton.mp hmem), hat⟩

/-! ### References that go down -/

/-- Whether the references of a token name tokens of a lower rank, and its outermost pointers single
out no part of a token that has pointers of its own. -/
def goesDown (g : Group) (rank : String → Nat) (t : Token) : Bool :=
  t.references.all (fun r => rank r < rank t.path) && t.value.outerPointers.all fun ref =>
    match (Pointer.parse ref).toOption.bind fun q => (q.target g).toOption with
    | some (_, u, rest) => rank u.path < rank t.path && (u.pointers.isEmpty || rest.isEmpty)
    | none => true

section

variable {rank : String → Nat}

theorem rank_lt_of_aims (hdown : g.goesDown rank t = true) {ref : String}
    (href : ref ∈ t.value.outerPointers) {spot : Place} {rest : List String}
    (haims : (Project.single g).Aims "" ref "" spot rest) (hu : g.tokenAt? spot = some u) :
    rank u.path < rank t.path ∧ (u.pointers = [] ∨ rest = []) := by
  obtain ⟨q, tree, v, hq, -, htree, hwalk⟩ := haims.walk
  obtain rfl := tree?_single htree
  obtain ⟨below, rfl, hv, -⟩ := Pointer.walk_eq_ok_iff.mp hwalk
  obtain rfl := Option.some.inj (hu.symm.trans hv)
  have hall := List.all_eq_true.mp (Bool.and_eq_true_iff.mp hdown).2 ref href
  rw [hq] at hall
  dsimp only [Except.toOption, Option.bind] at hall
  rw [hwalk] at hall
  simpa using hall

variable (hdown : ∀ place t, g.tokenAt? place = some t → g.goesDown rank t = true)
  {x y : String × Place} {a b : String}
include hdown

theorem rank_lt_of_leads (h : (Project.single g).Leads x y) (ht : g.tokenAt? x.2 = some t)
    (hu : g.tokenAt? y.2 = some u) : rank u.path < rank t.path := by
  obtain ⟨file, place⟩ := x
  obtain ⟨target, spot⟩ := y
  obtain ⟨t', ht', ref, href, rest, haims⟩ := h
  obtain ⟨rfl, hat⟩ := tokenAt?_single ht'
  obtain rfl := Option.some.inj (hat.symm.trans ht)
  obtain ⟨v, hv⟩ := haims.token
  obtain ⟨rfl, -⟩ := tokenAt?_single hv
  exact (rank_lt_of_aims (hdown place t' ht) href haims hu).1

theorem rank_lt_of_transGen (h : Relation.TransGen (Project.single g).Leads x y)
    (ht : g.tokenAt? x.2 = some t) (hu : g.tokenAt? y.2 = some u) : rank u.path < rank t.path := by
  induction h generalizing u with
  | single h => exact rank_lt_of_leads hdown h ht hu
  | tail _ h ih =>
    obtain ⟨v, hv, -⟩ := id h
    have hat := (tokenAt?_single hv).2
    exact (rank_lt_of_leads hdown h hat hu).trans (ih hat)

/-- What a token refers to, also by what it expands to, has a lower rank. -/
theorem rank_lt_of_refers (hg : g.Prepared) (hp : (Project.single g).Sound) (h : g.Refers a b) :
    rank b < rank a := by
  have hlower : ∀ place t, g.tokenAt? place = some t → ∀ r ∈ t.references, rank r < rank t.path :=
    fun place t ht r hr =>
      of_decide_eq_true (List.all_eq_true.mp (Bool.and_eq_true_iff.mp (hdown place t ht)).1 r hr)
  obtain ⟨place, t, ht, rfl, hown | ⟨v, hv, ho⟩⟩ := h
  · exact hlower place t ht b hown
  · obtain ⟨x, u, hreach, hu, ho⟩ := hv.exists_occurrence hp ho
    have hat := (tokenAt?_single hu).2
    have hnamed := hlower x.2 u hat b ((hg.tracked x.2 u hat).mem_references ho)
    rcases Relation.reflTransGen_iff_eq_or_transGen.mp hreach with rfl | htrans
    · obtain rfl := Option.some.inj (hat.symm.trans ht)
      exact hnamed
    · exact hnamed.trans (rank_lt_of_transGen hdown htrans ht hat)

theorem rank_lt_of_refers_transGen (hg : g.Prepared) (hp : (Project.single g).Sound)
    (h : Relation.TransGen g.Refers a b) : rank b < rank a := by
  induction h with
  | single h => exact rank_lt_of_refers hdown hg hp h
  | tail _ h ih => exact (rank_lt_of_refers hdown hg hp h).trans ih

end

/-- **A tree is transparent if its references go down in some rank.** -/
theorem transparent_of_goesDown (hg : g.Prepared) (hreadable : ∀ t ∈ g.tokens, t.Readable)
    (rank : String → Nat) (hdown : ∀ t ∈ g.tokens, g.goesDown rank t = true) :
    g.Transparent := by
  have hp := sound_single hg hreadable
  have hdown : ∀ place t, g.tokenAt? place = some t → g.goesDown rank t = true :=
    fun place t ht => hdown t ((mem_tokens_iff hg.keysDistinct).mpr ⟨place, ht⟩)
  refine ⟨fun x hcycle => ?_, fun place t ht ref href spot u rest whole haims hu hsome _ => ?_,
    fun path hcycle => ?_⟩
  · obtain ⟨y, ⟨t, ht, -⟩, -⟩ := Relation.TransGen.head'_iff.mp hcycle
    have hat := (tokenAt?_single ht).2
    exact absurd (rank_lt_of_transGen hdown hcycle hat hat) (Nat.lt_irrefl _)
  · obtain ⟨-, hnone | rfl⟩ := rank_lt_of_aims (hdown place t ht) href haims hu
    · exact absurd hnone hsome
    · exact ⟨whole, by cases whole <;> rfl⟩
  · exact absurd (rank_lt_of_refers_transGen hdown hg hp hcycle) (Nat.lt_irrefl _)

/-! ### What a silent validation says -/

/-- Validation finds nothing wrong. -/
structure Silent (g : Group) : Prop where
  malformed : ∀ place t, g.tokenAt? place = some t → t.malformed = []
  found : ∀ place t, g.tokenAt? place = some t → ∀ r ∈ t.references,
    ∃ y, g.findToken? r = some y
  reaches : ∀ place t, g.tokenAt? place = some t → ∀ ref ∈ t.pointers,
    Validation.Reaches none g none ref
  acyclic : ∀ path, ¬ g.OnCycle path

theorem silent_of_validate (hg : g.Prepared) (hreadable : ∀ t ∈ g.tokens, t.Readable)
    (h : g.validate none none = .ok []) : g.Silent := by
  obtain ⟨problems, hproblems, hbroken, hcycles⟩ := told_of_validate hreadable none none
  obtain rfl := Except.ok.inj (h.symm.trans hproblems)
  have hsound : ∀ place t, g.tokenAt? place = some t → ∀ reference,
      ¬ Validation.Broken none g none t reference := by
    intro place t ht reference hb
    obtain ⟨e, he, -⟩ :=
      hbroken t ((mem_tokens_iff hg.keysDistinct).mpr ⟨place, ht⟩) reference hb
    exact List.not_mem_nil he
  have hfound : ∀ place t, g.tokenAt? place = some t → ∀ r ∈ t.references,
      ∃ y, g.findToken? r = some y := fun place t ht r hr =>
    Option.ne_none_iff_exists'.mp fun hnone => hsound place t ht _ (.aliasOf hr hnone)
  refine ⟨fun place t ht => ?_, hfound, fun place t ht ref href => ?_, fun path hcycle => ?_⟩
  · exact List.eq_nil_iff_forall_not_mem.mpr fun text htext =>
      hsound place t ht _ (.malformed htext)
  · by_contra hlost
    exact hsound place t ht _ (.pointer href hlost)
  · -- A path on a cycle is an alias of some token, so a token has it.
    obtain ⟨u, -, hedge⟩ := Relation.TransGen.tail'_iff.mp hcycle
    obtain ⟨place, t, ht, -, hr⟩ := (edge_aliasGraph_iff hg).mp hedge
    obtain ⟨y, hy⟩ := hfound place t ht path hr
    obtain ⟨e, he, -⟩ := hcycles path y hcycle hy
    exact List.not_mem_nil he

/-- Where a pointer of a lone tree reaches, it aims. -/
theorem aims_of_reaches {ref : String} (h : Validation.Reaches none g none ref) :
    ∃ spot u rest, (Project.single g).Aims "" ref "" spot rest ∧ g.tokenAt? spot = some u ∧
      (u.pointers = [] → ∃ w, Pointer.descend ref u.value rest = .ok (.ok w)) := by
  obtain ⟨q, tree, spot, u, rest, hq, htree, hu, hsegments, hpart⟩ := h
  unfold Validation.treeOf at htree
  split at htree
  · rename_i hfile
    obtain rfl := Except.ok.inj htree
    have htarget : (Project.single g).fileOf? q "" = some "" := by
      unfold Project.fileOf?
      rw [hfile]
    exact ⟨spot, u, rest, ⟨⟨q, hq, htarget, hsegments⟩, u, hu⟩, hu, hpart⟩
  · cases htree

/-- Every token of a transparent tree expands if validation finds nothing wrong. -/
theorem good_of_silent (hg : g.Prepared) (hp : (Project.single g).Sound)
    (htransparent : g.Transparent) (hsilent : g.Silent) {x : String × Place}
    (ht : (Project.single g).tokenAt? x.1 x.2 = some t) : (Project.single g).Good x.1 x.2 := by
  have hfinite : {y | y ∈ g.placedTokens.map fun p => ("", p.1)}.Finite := List.finite_toSet _
  refine Project.induction_of_acyclic (P := fun x => ∀ t,
    (Project.single g).tokenAt? x.1 x.2 = some t → (Project.single g).Good x.1 x.2)
    hfinite (fun x y hy => ?_) htransparent.hops (fun x ih t ht => ?_) x t ht
  · obtain ⟨u, hu⟩ := hy.exists_token
    obtain ⟨hfile, hat⟩ := tokenAt?_single hu
    exact List.mem_map.mpr ⟨_, (mem_placedTokens_iff hg.keysDistinct).mpr hat,
      Prod.ext hfile.symm rfl⟩
  · obtain ⟨file, place⟩ := x
    obtain ⟨rfl, hplace⟩ := tokenAt?_single ht
    have hstands : ∀ ref ∈ t.value.outerPointers, ∃ w, (Project.single g).Stands "" ref w := by
      intro ref href
      have hpointer : ref ∈ t.pointers := (hp.tracked ht).pointers ▸ Value.mem_pointers_iff.mpr
        (Value.mem_occurrences_of_outer (hp.tracked ht).refsAreTexts href)
      obtain ⟨spot, u, rest, haims, hu, hplain⟩ :=
        aims_of_reaches (hsilent.reaches place t hplace ref hpointer)
      obtain ⟨whole, hwhole⟩ := ih ("", spot) ⟨t, ht, ref, href, rest, haims⟩ u hu
      have hpart : ∃ w, Pointer.descend ref whole rest = .ok (.ok w) := by
        by_cases hnone : u.pointers = []
        · rw [hwhole.unique (hp.expands_self hu hnone)]
          exact hplain hnone
        · exact htransparent.parts place t hplace ref href spot u rest whole haims hu hnone hwhole
      obtain ⟨w, hw⟩ := hpart
      exact ⟨w, "", spot, rest, whole, haims, hwhole, hw⟩
    choose! part hpart using hstands
    exact ⟨_, Project.expands_of_stands ht hpart⟩

/-! ### The run -/

section

variable (hg : g.Prepared) (hp : (Project.single g).Sound) (htransparent : g.Transparent)
  (hsilent : g.Silent) (hlimit : (g.tokens.length : Int) ≤ maxDepth)
include hg hp htransparent hsilent hlimit

/-- What the tokens of the assembled tree have become. -/
theorem exists_included_of_silent
    (htree : ((Project.single g).assembleFile "" maxDepth).1.tree? "" = some tree)
    (hu : tree.tokenAt? place = some u) :
    ∃ t, g.tokenAt? place = some t ∧ (Project.single g).Included "" place t u := by
  have hkeys : ∀ file place t, (Project.single g).tokenAt? file place = some t →
      (file, t.path) ∈ g.tokens.map fun t => ("", t.path) := by
    intro file place t ht
    obtain ⟨rfl, hat⟩ := tokenAt?_single ht
    exact List.mem_map.mpr ⟨t, (mem_tokens_iff hg.keysDistinct).mpr ⟨place, hat⟩, rfl⟩
  have hbound : (g.tokens.map fun t => ("", t.path)).length ≤ Assembly.hopsWithin maxDepth := by
    rw [List.length_map, Assembly.hopsWithin]
    omega
  have hgood : ∀ place t, (Project.single g).tokenAt? "" place = some t →
      (Project.single g).Good "" place := fun place t ht =>
    good_of_silent hg hp htransparent hsilent (x := ("", place)) ht
  refine Project.exists_included hp hkeys hbound hgood ?_
  rw [Project.tokenAt?, htree]
  exact hu

/-- In the assembled tree every alias leads to a token. -/
theorem navigable_of_silent
    (htree : ((Project.single g).assembleFile "" maxDepth).1.tree? "" = some tree)
    (hprepared : tree.Prepared) (houtline : tree.outline = g.outline)
    (htime : ∀ t ∈ tree.tokens, tree.InTime t.path) : tree.Navigable := by
  have hincluded : ∀ place u, tree.tokenAt? place = some u →
      ∃ t, g.tokenAt? place = some t ∧ (Project.single g).Included "" place t u :=
    fun place u hu => exists_included_of_silent hg hp htransparent hsilent hlimit htree hu
  have horigin : ∀ place v o, (Project.single g).Expands "" place v → o ∈ v.occurrences →
      ∃ spot t, g.tokenAt? spot = some t ∧ o ∈ t.value.occurrences := by
    intro place v o hv ho
    obtain ⟨x, t, -, ht, ho⟩ := hv.exists_occurrence hp ho
    exact ⟨x.2, t, (tokenAt?_single ht).2, ho⟩
  refine ⟨fun place u hu => ?_, fun place u hu => ?_, fun place u hu r hr => ?_,
    fun path hcycle => ?_, fun place u hu => ?_⟩
  · obtain ⟨t, -, h⟩ := hincluded place u hu
    exact h.pointers
  · obtain ⟨t, ht, h⟩ := hincluded place u hu
    refine List.eq_nil_iff_forall_not_mem.mpr fun text htext => ?_
    rcases h.malformed text htext with hown | ⟨v, hv, ho⟩
    · rw [hsilent.malformed place t ht] at hown
      exact List.not_mem_nil hown
    · obtain ⟨spot, x, hx, ho⟩ := horigin place v _ hv ho
      have hmem := (hg.tracked spot x hx).malformed text (Value.mem_malformed_iff.mpr ho)
      rw [hsilent.malformed spot x hx] at hmem
      exact List.not_mem_nil hmem
  · obtain ⟨t, ht, h⟩ := hincluded place u hu
    have hfound : ∃ y, g.findToken? r = some y := by
      rcases h.references r hr with hown | ⟨v, hv, ho⟩
      · exact hsilent.found place t ht r hown
      · obtain ⟨spot, x, hx, ho⟩ := horigin place v _ hv ho
        exact hsilent.found spot x hx r ((hg.tracked spot x hx).mem_references ho)
    obtain ⟨y, hy⟩ := hfound
    obtain ⟨z, hz, -⟩ := exists_findToken?_of_outline houtline.symm hy
    exact ⟨z, hz⟩
  · have hrefers : ∀ a b, tree.aliasGraph.Edge a b → g.Refers a b := by
      intro a b hedge
      obtain ⟨place, u, hu, hpath, hb⟩ := (edge_aliasGraph_iff hprepared).mp hedge
      obtain ⟨t, ht, h⟩ := hincluded place u hu
      exact ⟨place, t, ht, h.path.symm.trans hpath, h.references b hb⟩
    exact hsilent.acyclic path
      (htransparent.aliases path (Relation.TransGen.mono hrefers _ _ hcycle))
  · exact htime u ((mem_tokens_iff hprepared.keysDistinct).mpr ⟨place, hu⟩)

end

/-- Hops that form no cycle are followed within a limit of as many hops as there are tokens. -/
theorem not_endangered_of_transparent (hkeys : g.KeysDistinct) (htransparent : g.Transparent)
    (hlimit : (g.tokens.length : Int) ≤ maxDepth) (x : String × Place) :
    ¬ (Project.single g).Endangered "" maxDepth x := by
  intro hdanger
  obtain ⟨first, hchain⟩ := hdanger.hasChain
  have hall : ∀ x y, (Project.single g).Leads x y →
      y ∈ g.placedTokens.map fun p => ("", p.1) := by
    intro x y hedge
    obtain ⟨u, hu⟩ := hedge.exists_token
    obtain ⟨hfile, hat⟩ := tokenAt?_single hu
    exact List.mem_map.mpr ⟨_, (mem_placedTokens_iff hkeys).mpr hat, Prod.ext hfile.symm rfl⟩
  have hbound := hchain.length_le htransparent.hops hall
  have hlength : g.placedTokens.length = g.tokens.length := (List.length_map ..).symm
  rw [List.length_map, hlength, Assembly.hopsWithin] at hbound
  omega

/-- **A run over a transparent tree with which validation finds nothing wrong reports nothing
missing and nothing circular**, if the limit is at least the number of tokens and no token has its
turn too early.  It comes to its end if all integers in the tokens have numerals, and so has the
limit. -/
theorem run_of_silent_validation (hg : g.Prepared) (hreadable : ∀ t ∈ g.tokens, t.Readable)
    (htransparent : g.Transparent) (hlimit : (g.tokens.length : Int) ≤ maxDepth)
    (htime : ∀ tree, ((Project.single g).assembleFile "" maxDepth).1.tree? "" = some tree →
      ∀ t ∈ tree.tokens, tree.InTime t.path)
    (hvalid : g.validate none none = .ok []) :
    (∀ problems, ((Resolver.start maxDepth).run (Project.single g) "").2.2 = .ok problems →
      ∀ e ∈ problems, e.kind ≠ .missing ∧ e.kind ≠ .circular) ∧
    (isWritable maxDepth = true → (∀ place t, g.tokenAt? place = some t → t.HasNumerals) →
      ∃ problems, ((Resolver.start maxDepth).run (Project.single g) "").2.2 = .ok problems) := by
  have hp := sound_single hg hreadable
  have hsilent := silent_of_validate hg hreadable hvalid
  obtain ⟨tree, htree, houtline⟩ := exists_tree_assembled (tree?_single_self g) maxDepth
  obtain ⟨before, -, hgrown⟩ :=
    (Assembly.ready_assembleFile hp.prepared "" maxDepth).1 "" tree htree
  have hnavigable := navigable_of_silent hg hp htransparent hsilent hlimit htree hgrown.prepared
    houtline (htime tree htree)
  have hmild := mild_final hgrown.prepared hnavigable maxDepth
  obtain ⟨s, places, hrun, -, hs⟩ := Project.exists_limited hp (fun file place t ht =>
    good_of_silent hg hp htransparent hsilent (x := (file, place)) ht) ""
      (Or.inr (not_endangered_of_transparent hg.keysDistinct htransparent hlimit))
  refine ⟨fun problems hok e he => ?_, fun hwritable hnumerals => ?_⟩
  · rw [hrun] at htree
    have hgoing := Resolver.going_of_run (r := Resolver.start maxDepth) hrun htree hok
    rw [Resolver.run_eq_ok hrun htree hgoing] at hok
    obtain rfl := Except.ok.inj hok
    rcases List.mem_append.mp he with he | he
    · rw [(hs.explained e he).kind]
      exact ⟨nofun, nofun⟩
    · exact hmild.problems e (List.mem_filter.mp he).1
  · have hgoing : (tree.finalPass maxDepth).halted = none := by
      refine Resolver.going_pass (r := Resolver.start maxDepth) hwritable fun place t ht => ?_
      refine Assembly.hasNumerals_assembleFile (fun file place t ht => ?_) "" maxDepth
        (Option.bind_eq_some_iff.mpr ⟨tree, htree, ht⟩)
      exact hnumerals place t (tokenAt?_single ht).2
    rw [hrun] at htree
    exact ⟨_, congrArg (fun result => result.2.2) (Resolver.run_eq_ok hrun htree hgoing)⟩

theorem Direct.of_outline (h : g.Direct) (houtline : tree.outline = g.outline) : tree.Direct := by
  intro path u hu
  obtain ⟨t, ht, hsame⟩ := exists_findToken?_of_outline houtline hu
  exact (Token.path_eq_of_outline hsame).trans (h path t ht)

/-- A document with a chain of pointers into a list, which bring in an alias. -/
def borrowed : Value :=
  .object [("a", .object [(valueKey, .list [.int 1, .text "\x7bc\x7d"])]),
    ("b", .object [(valueKey, .object [("$ref", .text "#/a/$value/1")])]),
    ("c", .object [(valueKey, .int 2)]),
    ("d", .object [(valueKey, .object [("$ref", .text "#/b")])])]

theorem run_of_silent_validation_borrowed :
    (build borrowed).Prepared ∧ (∀ t ∈ (build borrowed).tokens, t.Readable) ∧
      (build borrowed).Transparent ∧ ((build borrowed).tokens.length : Int) ≤ 4 ∧
      (∀ tree, ((Project.single (build borrowed)).assembleFile "" 4).1.tree? "" = some tree →
        ∀ t ∈ tree.tokens, tree.InTime t.path) ∧
      (build borrowed).validate none none = .ok [] ∧ isWritable 4 = true ∧
      (∀ t ∈ (build borrowed).tokens, t.value.HasNumerals) ∧
      ∃ problems, ((Resolver.start 4).run (Project.single (build borrowed)) "").2.2 = .ok problems ∧
        ∀ e ∈ problems, e.kind ≠ .missing ∧ e.kind ≠ .circular := by
  have hkeys : borrowed.KeysDistinct := by decide +kernel
  have hg : (build borrowed).Prepared :=
    prepared_build hkeys (by decide +kernel) (by decide +kernel)
  have hreadable : ∀ t ∈ (build borrowed).tokens, t.Readable := by decide +kernel
  have htransparent : (build borrowed).Transparent :=
    transparent_of_goesDown hg hreadable (fun path => ["c", "a", "b", "d"].idxOf path)
      (by decide +kernel)
  have hlimit : ((build borrowed).tokens.length : Int) ≤ 4 := by decide +kernel
  have hdirect : (build borrowed).Direct :=
    (found_build hkeys (by decide +kernel)).direct hg.label_path
  have htime : ∀ tree,
      ((Project.single (build borrowed)).assembleFile "" 4).1.tree? "" = some tree →
        ∀ t ∈ tree.tokens, tree.InTime t.path := by
    intro tree htree t _
    obtain ⟨assembled, hassembled, houtline⟩ :=
      exists_tree_assembled (tree?_single_self (build borrowed)) 4
    obtain rfl := Option.some.inj (htree.symm.trans hassembled)
    exact inTime_of_direct (hdirect.of_outline houtline) t.path
  have hvalid : (build borrowed).validate none none = .ok [] :=
    Session.silent_of_isEmpty (by decide +kernel)
  have hwritable : isWritable 4 = true := by decide +kernel
  have hnumerals : ∀ t ∈ (build borrowed).tokens, t.value.HasNumerals := by decide +kernel
  obtain ⟨hmild, hends⟩ :=
    run_of_silent_validation hg hreadable htransparent hlimit htime hvalid
  obtain ⟨problems, hrun⟩ := hends hwritable (hasNumerals_of_build hkeys hnumerals)
  exact ⟨hg, hreadable, htransparent, hlimit, htime, hvalid, hwritable, hnumerals, problems, hrun,
    hmild problems hrun⟩

/-! ### What validation does not look at -/

def ownPointer : Value := .object [("a", .object [(valueKey, .object [("$ref", .text "#/a")])])]

/-- A pointer to a part that is not there, of a token with a pointer of its own. -/
def hiddenPart : Value :=
  .object [("a", .object [(valueKey, .object [("$ref", .text "#/c")])]),
    ("b", .object [(valueKey, .object [("$ref", .text "#/a/$value/x")])]),
    ("c", .object [(valueKey, .int 1)])]

/-- An alias of a token whose pointer brings that alias into the token itself. -/
def hiddenCycle : Value :=
  .object [("b", .object [(valueKey, .text "\x7bc\x7d")]),
    ("c", .object [(valueKey, .object [("$ref", .text "#/b")])])]

/-- Validation reports nothing in a document, but a run with a limit that is not met does. -/
def Overlooked (document : Value) (kind : ProblemKind) : Prop :=
  document.KeysDistinct ∧ ((build document).tokens.map Token.path).Nodup ∧
    ((build document).tokens.length : Int) ≤ 10 ∧ (build document).validate none none = .ok [] ∧
      ∃ problems, ((Resolver.start 10).run (Project.single (build document)) "").2.2 =
        .ok problems ∧ ∃ e ∈ problems, e.kind = kind

theorem overlooked_of_any {document : Value} {kind : ProblemKind}
    (h : document.KeysDistinct ∧ ((build document).tokens.map Token.path).Nodup ∧
      ((build document).tokens.length : Int) ≤ 10 ∧
        ((build document).validate none none).toOption.map List.isEmpty = some true ∧
          ((Resolver.start 10).run (Project.single (build document)) "").2.2.toOption.any
            (fun problems => problems.any fun e => e.kind = kind) = true) :
    Overlooked document kind := by
  obtain ⟨hkeys, hpaths, hlimit, hsilent, hany⟩ := h
  refine ⟨hkeys, hpaths, hlimit, Session.silent_of_isEmpty hsilent, ?_⟩
  cases hrun : ((Resolver.start 10).run (Project.single (build document)) "").2.2 with
  | error e =>
    rw [hrun] at hany
    cases hany
  | ok problems =>
    rw [hrun] at hany
    obtain ⟨e, he, hkind⟩ := List.any_eq_true.mp hany
    exact ⟨problems, rfl, e, he, of_decide_eq_true hkind⟩

/-- A pointer back to its token, a part that is missing and a cycle of aliases are overlooked. -/
theorem reported_after_silent_validation :
    Overlooked ownPointer .circular ∧ Overlooked hiddenPart .missing ∧
      Overlooked hiddenCycle .circular :=
  ⟨overlooked_of_any (by decide +kernel), overlooked_of_any (by decide +kernel),
    overlooked_of_any (by decide +kernel)⟩

end Group

end DesignTokens

import DesignTokens.Proofs.Resolution.Halting
import DesignTokens.Proofs.Token.Building

/-!
# Which tokens end up resolved

A token that is resolved at the end of all turns has settled on its value, and what it refers to is
resolved as well, also where the pass was halted (`Group.settles_of_resolved`,
`Group.target_of_resolved`).  `Group.final_cases` reads the invariant where it was not: a token is
resolved with the value on which it settles, or it is not resolved, does not settle and has a
problem.  `Group.Resolvable` says of a tree after resolution when a token can be resolved, in terms
of the tokens it refers to.

A token without `$ref` is resolved exactly when it is resolvable and its turn comes in
time, and it is left unresolved exactly when a problem carries its path.  `earlyTurn`
is a document in which a turn comes too early: there a token that is resolvable stays
unresolved.
-/

namespace DesignTokens

theorem Token.Tracked.pointers_eq_nil {t : Token} (h : t.Tracked) (hrefs : t.value.NoRefs) :
    t.pointers = [] := by
  rw [h.pointers]
  exact hrefs.scan_pointers

/-- A token without what resolution finds out about it. -/
def Token.source (t : Token) : Token := { t with resolved := false, resolvedValue := .null }

theorem Token.eq_of_source {t u : Token} (h : u.source = t.source) :
    u.path = t.path ∧ u.value = t.value ∧ u.references = t.references ∧
      u.malformed = t.malformed :=
  ⟨show u.source.path = t.source.path from congrArg Token.path h,
    show u.source.value = t.source.value from congrArg Token.value h,
    show u.source.references = t.source.references from congrArg Token.references h,
    show u.source.malformed = t.source.malformed from congrArg Token.malformed h⟩

namespace Group

variable {g : Group} {limit : Int} {place : Place} {t u : Token}

/-! ### The end of all turns -/

theorem findToken?_finalPass (hg : g.Prepared) (limit : Int) (path : String) :
    (g.finalPass limit).tree.findToken? path =
      (g.finalPass limit).tree.tokenAt? (g.placeOf path) :=
  (finalPass_spec hg limit).1.findToken?_eq path

/-- A token in the end: it was resolved from the start, it was resolved to the value on which it
settles, or it is not resolved. -/
theorem final_shape (hg : g.Prepared) (limit : Int) (ht : g.tokenAt? place = some t) :
    ((g.finalPass limit).tree.tokenAt? place = some t ∧
        (g.finalPass limit).resolver.outcomes.get? t.path = none) ∨
      (∃ v, g.Settles limit t v ∧ (g.finalPass limit).tree.tokenAt? place =
          some { t with resolved := true, resolvedValue := v } ∧
        (g.finalPass limit).resolver.outcomes.get? t.path = some none) ∨
      ((∀ v, ¬ g.Settles limit t v) ∧
        (g.finalPass limit).tree.tokenAt? place = some { t with resolved := false } ∧
        ∃ e ∈ (g.finalPass limit).problems, e.path = t.path) := by
  have hfinal := (finalPass_spec hg limit).1
  cases hout : (g.finalPass limit).resolver.outcomes.get? t.path with
  | none => exact .inl ⟨(hfinal.pending place t ht hout).1, rfl⟩
  | some outcome =>
    cases outcome with
    | none =>
      obtain ⟨v, hv, htree, -⟩ := hfinal.succeeded place t ht hout
      exact .inr (.inl ⟨v, hv, htree, rfl⟩)
    | some kind => exact .inr (.inr (hfinal.failed place t kind ht hout))

/-- In the end a token is resolved with the value on which it settles, or it does not
settle. -/
theorem final_cases (hg : g.Prepared) (hgoing : (g.finalPass limit).halted = none)
    (ht : g.tokenAt? place = some t) :
    (∃ v, g.Settles limit t v ∧ (g.finalPass limit).tree.tokenAt? place =
        some { t with resolved := true, resolvedValue := v }) ∨
      ((∀ v, ¬ g.Settles limit t v) ∧
        (g.finalPass limit).tree.tokenAt? place = some { t with resolved := false } ∧
        ∃ e ∈ (g.finalPass limit).problems, e.path = t.path) := by
  rcases final_shape hg limit ht with ⟨-, hout⟩ | ⟨v, hv, htree, -⟩ | hfailed
  · have hhas := (finalPass_spec hg limit).2 hgoing place t ht
    rw [Table.has, hout] at hhas
    cases hhas
  · exact .inl ⟨v, hv, htree⟩
  · exact .inr hfailed

theorem exists_of_mem_final (hg : g.Prepared) (hu : u ∈ (g.finalPass limit).tree.tokens) :
    ∃ place t, g.tokenAt? place = some t ∧
      (g.finalPass limit).tree.tokenAt? place = some u := by
  have hfinal := (finalPass_spec hg limit).1
  obtain ⟨place, hat⟩ := (mem_tokens_iff hfinal.keysDistinct).mp hu
  cases ht : g.tokenAt? place with
  | none =>
    rw [hfinal.absent place ht] at hat
    cases hat
  | some t => exact ⟨place, t, ht, hat⟩

theorem source_final (hg : g.Prepared) (limit : Int) (place : Place) :
    ((g.finalPass limit).tree.tokenAt? place).map Token.source =
      (g.tokenAt? place).map Token.source := by
  cases ht : g.tokenAt? place with
  | none => rw [(finalPass_spec hg limit).1.absent place ht]
  | some t =>
    rcases final_shape hg limit ht with ⟨htree, -⟩ | ⟨v, -, htree, -⟩ | ⟨-, htree, -⟩
    · rw [htree]
    · rw [htree]
      rfl
    · rw [htree]
      rfl

theorem source_eq_of_final (hg : g.Prepared) (ht : g.tokenAt? place = some t)
    (hu : (g.finalPass limit).tree.tokenAt? place = some u) : u.source = t.source := by
  have hmap := source_final hg limit place
  rw [hu, ht] at hmap
  exact Option.some.inj hmap

/-- A resolved token has settled on its resolved value. -/
theorem settles_of_resolved (hg : g.Prepared) (ht : g.tokenAt? place = some t)
    (hu : (g.finalPass limit).tree.tokenAt? place = some u) (hresolved : u.resolved = true) :
    g.Settles limit t u.resolvedValue := by
  rcases final_shape hg limit ht with ⟨htree, -⟩ | ⟨v, hv, htree, -⟩ | ⟨-, htree, -⟩
  · rw [htree] at hu
    obtain rfl := Option.some.inj hu
    rw [(hg.tracked place t ht).resolvedValue hresolved]
    exact .of_resolved hg ht hresolved
  · rw [htree] at hu
    rw [← Option.some.inj hu]
    exact hv
  · rw [htree] at hu
    rw [← Option.some.inj hu] at hresolved
    cases hresolved

/-- What a resolved token refers to is resolved. -/
theorem target_of_resolved (hg : g.Prepared) (ht : g.tokenAt? place = some t)
    (hu : (g.finalPass limit).tree.tokenAt? place = some u) (hresolved : u.resolved = true)
    {r : String} (hr : r ∈ t.references) :
    ∃ y x, g.findToken? r = some y ∧ (g.finalPass limit).tree.findToken? r = some x ∧
      x.resolved = true := by
  have hfinal := (finalPass_spec hg limit).1
  obtain ⟨target, value, -, -, hfound, hsettled, -, -, -⟩ := settles_of_resolved hg ht hu hresolved
  have hy := hfound r hr
  have htracked := hg.tracked _ _ hy
  refine ⟨target r, ?_⟩
  rw [findToken?_finalPass hg]
  rcases final_shape hg limit hy with ⟨htree, hpending⟩ | ⟨v, -, htree, -⟩ | ⟨hnot, -⟩
  · refine ⟨target r, hy, htree, (hsettled r hr).resolved_of_references htracked ?_⟩
    by_contra hne
    -- a target that refers to something has succeeded before
    rcases final_shape hg limit ht with ⟨htree', -⟩ | ⟨-, -, -, hsuccess⟩ | ⟨-, htree', -⟩
    · rw [htree'] at hu
      rw [← Option.some.inj hu] at hresolved
      rw [((hg.tracked place t ht).resolved_iff.mp hresolved).1] at hr
      exact List.not_mem_nil hr
    · rw [hfinal.grounded place t ht hsuccess r hr _ hy hne] at hpending
      cases hpending
    · rw [htree'] at hu
      rw [← Option.some.inj hu] at hresolved
      cases hresolved
  · exact ⟨_, hy, htree, rfl⟩
  · exact absurd (hsettled r hr) (hnot _)

theorem resolved_of_settles (hg : g.Prepared) (hgoing : (g.finalPass limit).halted = none)
    (ht : g.tokenAt? place = some t) {v : Value} (hv : g.Settles limit t v) :
    (g.finalPass limit).tree.tokenAt? place =
      some { t with resolved := true, resolvedValue := v } := by
  rcases final_cases hg hgoing ht with ⟨w, hw, htree⟩ | ⟨hnot, -⟩
  · rw [htree, hv.unique hg ht hw]
  · exact absurd hv (hnot v)

theorem findToken?_of_settles (hg : g.Prepared) (hgoing : (g.finalPass limit).halted = none)
    {path : String} (ht : g.findToken? path = some t) {v : Value} (hv : g.Settles limit t v) :
    (g.finalPass limit).tree.findToken? path =
      some { t with resolved := true, resolvedValue := v } := by
  rw [findToken?_finalPass hg]
  exact resolved_of_settles hg hgoing ht hv

theorem exists_settled (hg : g.Prepared) {path : String}
    (hu : (g.finalPass limit).tree.findToken? path = some u) (hresolved : u.resolved = true) :
    ∃ t, g.findToken? path = some t ∧ g.Settles limit t u.resolvedValue := by
  rw [findToken?_finalPass hg] at hu
  have hmap := source_final hg limit (g.placeOf path)
  rw [hu] at hmap
  obtain ⟨t, ht, -⟩ := Option.map_eq_some_iff.mp hmap.symm
  exact ⟨t, ht, settles_of_resolved hg ht hu hresolved⟩

theorem resolved_eq_false_iff (hg : g.Prepared) (hgoing : (g.finalPass limit).halted = none)
    (ht : g.tokenAt? place = some t) (hu : (g.finalPass limit).tree.tokenAt? place = some u) :
    u.resolved = false ↔ ∃ e ∈ (g.finalPass limit).problems, e.path = u.path := by
  have hfinal := (finalPass_spec hg limit).1
  rcases final_cases hg hgoing ht with ⟨v, hv, htree⟩ | ⟨-, htree, hproblem⟩
  · rw [htree] at hu
    rw [← Option.some.inj hu]
    refine iff_of_false (fun h => by cases h) ?_
    rintro ⟨e, he, hpath⟩
    obtain ⟨other, w, kind, hw, hwpath, ho⟩ := hfinal.reported e he
    have hsame := hg.placed.eq_of_path_eq hw ht (hwpath.trans hpath)
    exact (hfinal.failed other w kind hw ho).1 v (hsame ▸ hv)
  · rw [htree] at hu
    rw [← Option.some.inj hu]
    exact iff_of_true rfl hproblem

/-! ### Resolvable tokens -/

/-- What the references of a token must be for the token to be resolved: none is
malformed, each names a token that is resolved, no chain of aliases is longer than
the limit, and what stands inside a longer text is a scalar. -/
structure Resolvable (tree : Group) (limit : Int) (t : Token) : Prop where
  malformed : t.malformed = []
  targets : ∀ r ∈ t.references, ∃ x, tree.findToken? r = some x ∧ x.resolved = true
  chains : ∀ n, tree.AliasChain t n → (n : Int) ≤ limit
  scalars : ∀ r, Value.Embeds r t.value → ∀ x, tree.findToken? r = some x →
    x.resolvedValue.IsScalar

theorem AliasChain.of_source {a b : Group}
    (hsame : ∀ r, (a.findToken? r).map Token.source = (b.findToken? r).map Token.source)
    {n : Nat} (h : a.AliasChain t n) (hu : u.source = t.source) : b.AliasChain u n := by
  induction h generalizing u with
  | one hr => exact .one ((Token.eq_of_source hu).2.2.1 ▸ hr)
  | @more t x r n hr hx _ ih =>
    have hr' : r ∈ u.references := (Token.eq_of_source hu).2.2.1 ▸ hr
    have hmap := hsame r
    rw [hx] at hmap
    obtain ⟨y, hy, hsource⟩ := Option.map_eq_some_iff.mp hmap.symm
    exact .more hr' hy (ih hsource)

theorem findToken?_source_final (hg : g.Prepared) (limit : Int) (r : String) :
    ((g.finalPass limit).tree.findToken? r).map Token.source =
      (g.findToken? r).map Token.source := by
  rw [findToken?_finalPass hg]
  exact source_final hg limit _

/-- A resolved token is resolvable, and its turn came in time. -/
theorem resolvable_of_resolved (hg : g.Prepared) (ht : g.tokenAt? place = some t)
    (hu : (g.finalPass limit).tree.tokenAt? place = some u) (hresolved : u.resolved = true) :
    (g.finalPass limit).tree.Resolvable limit u ∧ g.InTime u.path := by
  have htracked := hg.tracked place t ht
  have hsource := source_eq_of_final hg ht hu
  obtain ⟨hpath, hvalue, hreferences, hmalformed⟩ := Token.eq_of_source hsource
  have htarget := fun r hr => target_of_resolved hg ht hu hresolved (r := r) hr
  cases settles_of_resolved hg ht hu hresolved with
  | intro target value hnone hpointers hfound hsettled hwithin htime hsub =>
    refine ⟨⟨hmalformed.trans hnone, ?_, ?_, ?_⟩, hpath ▸ htime⟩
    · intro r hr
      obtain ⟨-, x, -, hx, hready⟩ := htarget r (hreferences ▸ hr)
      exact ⟨x, hx, hready⟩
    · intro n hn
      exact hwithin n (hn.of_source (findToken?_source_final hg limit) hsource.symm)
    · intro r hr x hx
      rw [hvalue] at hr
      have honly := htracked.onlyAliases hpointers hnone
      have hscalar := (Value.exists_substitute_iff honly fun a _ => ⟨_, rfl⟩).mp ⟨_, hsub⟩
      have hmem : r ∈ t.references := htracked.mem_references (hr.mem_occurrences honly)
      obtain ⟨y, x', hy, hx', hready⟩ := htarget r hmem
      obtain rfl := Option.some.inj (hx.symm.trans hx')
      obtain rfl := Option.some.inj (hy.symm.trans (hfound r hmem))
      rw [findToken?_finalPass hg] at hx
      have hvalue' : value r = x.resolvedValue :=
        (hsettled r hmem).unique hg hy (settles_of_resolved hg hy hx hready)
      exact hvalue' ▸ hscalar r hr _ rfl

theorem settles_of_resolvable (hg : g.Prepared) (ht : g.tokenAt? place = some t)
    (hrefs : t.value.NoRefs) (hu : (g.finalPass limit).tree.tokenAt? place = some u)
    (hresolvable : (g.finalPass limit).tree.Resolvable limit u) (htime : g.InTime u.path) :
    ∃ v, g.Settles limit t v := by
  have htracked := hg.tracked place t ht
  have hpointers := htracked.pointers_eq_nil hrefs
  have hsource := source_eq_of_final hg ht hu
  obtain ⟨hpath, hvalue, hreferences, hmalformed⟩ := Token.eq_of_source hsource
  have hnone : t.malformed = [] := hmalformed ▸ hresolvable.malformed
  have honly := htracked.onlyAliases hpointers hnone
  have htarget : ∀ r ∈ t.references, ∃ x y, (g.finalPass limit).tree.findToken? r = some x ∧
      g.findToken? r = some y ∧ g.Settles limit y x.resolvedValue := by
    intro r hr
    obtain ⟨x, hx, hresolved⟩ := hresolvable.targets r (hreferences ▸ hr)
    obtain ⟨y, hy, hsettles⟩ := exists_settled hg hx hresolved
    exact ⟨x, y, hx, hy, hsettles⟩
  -- the values that the targets have in the end
  let value := fun r =>
    (((g.finalPass limit).tree.findToken? r).map Token.resolvedValue).getD .null
  obtain ⟨v, hv⟩ : ∃ v, t.value.substitute (fun r => .ok (value r)) = .ok v := by
    refine (Value.exists_substitute_iff honly fun a _ => ⟨_, rfl⟩).mpr ?_
    intro a ha x hx
    obtain ⟨x', y, hx', -⟩ := htarget a (htracked.mem_references (ha.mem_occurrences honly))
    have hvalue' : value a = x'.resolvedValue := by
      show (((g.finalPass limit).tree.findToken? a).map Token.resolvedValue).getD .null = _
      rw [hx']
      rfl
    rw [← Except.ok.inj hx, hvalue']
    exact hresolvable.scalars a (hvalue ▸ ha) x' hx'
  refine ⟨v, .intro (fun r => (g.findToken? r).getD default) value hnone hpointers
    ?_ ?_ ?_ (hpath ▸ htime) hv⟩
  · intro r hr
    obtain ⟨x, y, -, hy, -⟩ := htarget r hr
    rw [hy]
    rfl
  · intro r hr
    obtain ⟨x, y, hx, hy, hsettles⟩ := htarget r hr
    show g.Settles limit _ ((((g.finalPass limit).tree.findToken? r).map _).getD .null)
    rw [hx, hy]
    exact hsettles
  · intro n hn
    exact hresolvable.chains n
      (hn.of_source (fun r => (findToken?_source_final hg limit r).symm) hsource)

theorem resolved_iff_resolvable (hg : g.Prepared) (hgoing : (g.finalPass limit).halted = none)
    (ht : g.tokenAt? place = some t) (hrefs : t.value.NoRefs)
    (hu : (g.finalPass limit).tree.tokenAt? place = some u) :
    u.resolved = true ↔ (g.finalPass limit).tree.Resolvable limit u ∧ g.InTime u.path := by
  refine ⟨resolvable_of_resolved hg ht hu, ?_⟩
  rintro ⟨hresolvable, htime⟩
  obtain ⟨v, hv⟩ := settles_of_resolvable hg ht hrefs hu hresolvable htime
  rw [resolved_of_settles hg hgoing ht hv] at hu
  rw [← Option.some.inj hu]

/-! ### Documents without `$ref` -/

theorem hasNumerals_of_build {document : Value} (hkeys : document.KeysDistinct)
    (h : ∀ t ∈ (build document).tokens, t.value.HasNumerals) (place : Place) (t : Token)
    (ht : (build document).tokenAt? place = some t) : t.HasNumerals := by
  have hvalue := h t ((mem_tokens_iff (keysDistinct_build hkeys)).mpr ⟨place, ht⟩)
  obtain ⟨name, members, parent, inherited, rfl⟩ := tokenAt?_build ht
  exact Token.hasNumerals_build hvalue

/-- Resolution of a document comes to its end if the limit and all integers in values have
numerals. -/
theorem exists_resolve {document : Value} {maxDepth : Int} (hkeys : document.KeysDistinct)
    (hlimit : isWritable maxDepth = true)
    (h : ∀ t ∈ (build document).tokens, t.value.HasNumerals) :
    ((Resolver.start maxDepth).resolve (build document)).2.2 =
      .ok ((build document).finalPass maxDepth).problems :=
  Pass.outcome_eq_ok.mpr
    ⟨Resolver.going_pass (r := Resolver.start maxDepth) hlimit (hasNumerals_of_build hkeys h), rfl⟩

/-- **Which tokens of a document without `$ref` are resolved, and which have a
problem.**  Resolution changes nothing else.  The condition on the turn is always
met where every path leads to the token that has it.  The work comes to its end if the limit and
all integers in values have numerals; a token that is resolved before it ends otherwise is
resolvable as well. -/
theorem resolve_resolved_iff (document : Value) (maxDepth : Int) (hkeys : document.KeysDistinct)
    (hpaths : ((build document).tokens.map Token.path).Nodup)
    (hrefs : ∀ t ∈ (build document).tokens, t.value.NoRefs) :
    let (tree, _, outcome) := (Resolver.start maxDepth).resolve (build document)
    (∀ place, (tree.tokenAt? place).map Token.source =
        ((build document).tokenAt? place).map Token.source) ∧
      (∀ t ∈ tree.tokens, t.resolved = true →
        tree.Resolvable maxDepth t ∧ (build document).InTime t.path) ∧
      (∀ problems, outcome = .ok problems →
        (∀ t ∈ tree.tokens, (t.resolved = true ↔
          tree.Resolvable maxDepth t ∧ (build document).InTime t.path)) ∧
        (∀ t ∈ tree.tokens, (t.resolved = false ↔ ∃ e ∈ problems, e.path = t.path)) ∧
        ((build document).Direct →
          ∀ t ∈ tree.tokens, (t.resolved = true ↔ tree.Resolvable maxDepth t))) ∧
      (isWritable maxDepth = true → (∀ t ∈ (build document).tokens, t.value.HasNumerals) →
        ∃ problems, outcome = .ok problems) := by
  have hg := prepared_build hkeys hpaths fun t ht => (hrefs t ht).refsAreTexts
  rw [resolve_eq]
  refine ⟨source_final hg maxDepth, fun u hu => ?_, fun problems houtcome => ?_,
    fun hlimit hnumerals => ⟨_, exists_resolve hkeys hlimit hnumerals⟩⟩
  · obtain ⟨place, t, ht, hat⟩ := exists_of_mem_final hg hu
    exact resolvable_of_resolved hg ht hat
  · obtain ⟨hgoing, rfl⟩ := Pass.outcome_eq_ok.mp houtcome
    have hiff : ∀ t ∈ ((build document).finalPass maxDepth).tree.tokens, (t.resolved = true ↔
        ((build document).finalPass maxDepth).tree.Resolvable maxDepth t ∧
          (build document).InTime t.path) := by
      intro u hu
      obtain ⟨place, t, ht, hat⟩ := exists_of_mem_final hg hu
      exact resolved_iff_resolvable hg hgoing ht
        (hrefs t ((mem_tokens_iff hg.keysDistinct).mpr ⟨place, ht⟩)) hat
    refine ⟨hiff, ?_, ?_⟩
    · intro u hu
      obtain ⟨place, t, ht, hat⟩ := exists_of_mem_final hg hu
      exact resolved_eq_false_iff hg hgoing ht hat
    · intro hdirect u hu
      rw [hiff u hu, and_iff_left (inTime_of_direct hdirect u.path)]

/-- A document in which a turn comes too early.  The token with the path `b` stands
below a key without characters, and there the path `.b` of its neighbour leads. -/
def earlyTurn : Value :=
  let token := fun v => Value.object [(valueKey, v)]
  .object
    [("", .object [(".b", token (.text "\x7bz\x7d")), ("b", token (.text "\x7by\x7d"))]),
      ("y", token (.text "\x7bz\x7d")), ("z", token (.int 1))]

theorem resolve_resolved_iff_earlyTurn :
    earlyTurn.KeysDistinct ∧ ((build earlyTurn).tokens.map Token.path).Nodup ∧
      (∀ t ∈ (build earlyTurn).tokens, t.value.NoRefs) ∧ isWritable 10 = true ∧
      (∀ t ∈ (build earlyTurn).tokens, t.value.HasNumerals) ∧
      ∃ problems, ((Resolver.start 10).resolve (build earlyTurn)).2.2 = .ok problems ∧
        ∀ t ∈ ((Resolver.start 10).resolve (build earlyTurn)).1.tokens, (t.resolved = true ↔
          ((Resolver.start 10).resolve (build earlyTurn)).1.Resolvable 10 t ∧
            (build earlyTurn).InTime t.path) := by
  have hkeys : earlyTurn.KeysDistinct := by decide +kernel
  have hpaths : ((build earlyTurn).tokens.map Token.path).Nodup := by decide +kernel
  have hrefs : ∀ t ∈ (build earlyTurn).tokens, t.value.NoRefs := by decide +kernel
  have hlimit : isWritable 10 = true := by decide +kernel
  have hnumerals : ∀ t ∈ (build earlyTurn).tokens, t.value.HasNumerals := by decide +kernel
  obtain ⟨-, -, hends, hreturns⟩ := resolve_resolved_iff earlyTurn 10 hkeys hpaths hrefs
  obtain ⟨problems, hproblems⟩ := hreturns hlimit hnumerals
  exact ⟨hkeys, hpaths, hrefs, hlimit, hnumerals, problems, hproblems, (hends problems hproblems).1⟩

/-- A token that is resolvable can stay unresolved: its turn comes before that of a
token it refers to. -/
theorem not_resolved_of_early_turn :
    ((Resolver.start 10).resolve (build earlyTurn)).2.2.toOption.isSome = true ∧
      ∃ t ∈ ((Resolver.start 10).resolve (build earlyTurn)).1.tokens,
        ((Resolver.start 10).resolve (build earlyTurn)).1.Resolvable 10 t ∧ t.resolved = false := by
  have hg : (build earlyTurn).Prepared := prepared_build (by decide +kernel) (by decide +kernel)
    fun t ht => Value.NoRefs.refsAreTexts
      ((by decide +kernel : ∀ t ∈ (build earlyTurn).tokens, t.value.NoRefs) t ht)
  have hdistinct := (finalPass_spec hg 10).1.keysDistinct
  refine ⟨by decide +kernel, ?_⟩
  rw [resolve_eq]
  -- what is found in the tree, field by field
  have hb : (((build earlyTurn).finalPass 10).tree.findToken? ".b").map (fun t =>
      (t.references, t.malformed, t.resolved, t.value.text?)) =
        some (["y"], [], false, some "\x7by\x7d") := by decide +kernel
  have hy : (((build earlyTurn).finalPass 10).tree.findToken? "y").map (fun t =>
      (t.references, t.resolved)) = some (["z"], true) := by decide +kernel
  have hz : (((build earlyTurn).finalPass 10).tree.findToken? "z").map Token.references =
      some [] := by decide +kernel
  generalize ((build earlyTurn).finalPass 10).tree = tree at hdistinct hb hy hz ⊢
  obtain ⟨t, ht, hfields⟩ := Option.map_eq_some_iff.mp hb
  obtain ⟨y, hyt, hyfields⟩ := Option.map_eq_some_iff.mp hy
  obtain ⟨z, hzt, hzreferences⟩ := Option.map_eq_some_iff.mp hz
  simp only [Prod.mk.injEq] at hfields hyfields
  obtain ⟨hreferences, hmalformed, hresolved, htext⟩ := hfields
  refine ⟨t, (mem_tokens_iff hdistinct).mpr ⟨_, ht⟩, ⟨hmalformed, ?_, ?_, ?_⟩, hresolved⟩
  · intro r hr
    rw [hreferences, List.mem_singleton] at hr
    exact ⟨y, hr ▸ hyt, hyfields.2⟩
  · intro n hn
    have hshort : n ≤ 1 + 1 := by
      refine hn.le_succ fun r hr x hx m hm => hm.le_succ ?_
      intro r' hr' x' hx' k hk
      rw [hreferences, List.mem_singleton] at hr
      rw [hr, hyt] at hx
      rw [← Option.some.inj hx, hyfields.1, List.mem_singleton] at hr'
      rw [hr', hzt] at hx'
      exact absurd (Option.some.inj hx' ▸ hzreferences) hk.references_ne_nil
    omega
  · intro r hr
    cases hv : t.value with
    | text s =>
      rw [hv] at hr htext
      cases Option.some.inj htext
      cases hr with
      | text hlong _ => exact absurd hlong (by decide +kernel)
    | _ =>
      rw [hv] at htext
      cases htext

end Group

end DesignTokens

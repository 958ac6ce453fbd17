import DesignTokens.Proofs.Assembly.Documents
import DesignTokens.Proofs.Assembly.Followed
import DesignTokens.Proofs.Assembly.Limit

/-!
# What an assembly with a limit leaves

A token is assembled with as many hops left as the limit allows after those that lead down
to it (`ends_assembleToken_limited`).  It is rejected only if none is left, and then it is
out of reach; so what is reported or left is in danger (`Project.assembleFile_limited`).

The limit does not say which chains of hops can be followed.  It bounds the hops that are
made one inside the other, and a token that is finished ends them: where tokens stand
behind those at which they aim, chains of any length are followed
(`Project.not_limited_by_hops`).
-/

namespace DesignTokens.Assembly

variable {base : Project} {home : String} {limit : Int} {before : List Problem}
  {finished : Set (String × Place)} {stack : List TokenKey} {s : Assembly}
  {file target ref : String}
  {place spot : Place} {rest : List String} {t u : Token} {whole w : Value}

/-- The answer to whether a token is ready: it has the value to which it expands, or something is
reported on it. -/
structure Reply (base : Project) (file : String) (place : Place) (t : Token) (ready : Bool)
    (s : Assembly) : Prop where
  expands : ready = true → ∃ u, s.tokenAt? file place = some u ∧ base.Expands file place u.value
  late : ready = false → Reported s.problems file t.path

/-! ### Following -/

/-- Once it is known whether the token at which a pointer aims is ready, the answer is what the
pointer stands for, or the token is too deep. -/
theorem ends_answer_limited (hexpands : base.Expands target spot whole)
    (hdescend : Pointer.descend ref whole rest = .ok (.ok w)) (hpath : u.path = t.path)
    (ready : Bool) :
    Ends (fun s => Limited base home limit before finished stack s ∧
      Reply base target spot t ready s)
      (answer ref target spot u rest ready) fun r s =>
        Limited base home limit before finished stack s ∧
          (r = .ok w ∨ ((∃ cause, r = .error (.depth, cause)) ∧
            Reported s.problems target t.path)) := by
  refine ends_answer (R := fun ready s => Limited base home limit before finished stack s ∧
    Reply base target spot t ready s) (fun s hs => ?_) (fun s cause hs => ⟨hs.1, Or.inr ?_⟩) ready
  · obtain ⟨v, hv, hv'⟩ := hs.2.expands rfl
    obtain rfl := hv'.unique hexpands
    exact ⟨v, .ok w, hv, hdescend, hs.1, Or.inl rfl⟩
  · have hreported := hs.2.late rfl
    obtain ⟨kind, hkind⟩ := Option.isSome_iff_exists.mp (hs.1.marked target t.path hreported)
    rw [hpath, hkind, hs.1.failed _ kind hkind]
    exact ⟨⟨_, rfl⟩, hreported⟩

/-- What is asked of the way in which the tokens are assembled to which one leads. -/
def Assembles (base : Project) (home : String) (limit : Int) (finished : Set (String × Place))
    (stack : List TokenKey) (file : String) (place : Place)
    (assemble : String → Place → AssemblyM Bool) : Prop :=
  ∀ before target spot t, base.Leads (file, place) (target, spot) →
    base.tokenAt? target spot = some t →
      Ends (fun s => Limited base home limit before finished stack s ∧
          ∃ u, s.tokenAt? target spot = some u ∧ u.pointers ≠ [])
        (assemble target spot) fun ready s =>
          Limited base home limit before finished stack s ∧ Reply base target spot t ready s

section

variable {assemble : String → Place → AssemblyM Bool}

/-- A pointer is followed to what it stands for, or its token is in danger. -/
theorem ends_follow_limited (hbase : base.Sound) (ht : base.tokenAt? file place = some t)
    (href : ref ∈ t.value.outerPointers) (hstands : base.Stands file ref w)
    (hassemble : Assembles base home limit finished stack file place assemble) :
    Ends (Limited base home limit before finished stack) (follow assemble file ref) fun r s =>
      Limited base home limit before finished stack s ∧
        (r = .ok w ∨ ((∃ cause, r = .error (.depth, cause)) ∧
          base.Endangered home limit (file, place))) := by
  obtain ⟨target, spot, rest, whole, haims, hexpands, hdescend⟩ := hstands
  obtain ⟨⟨q, hq, htarget, hsegments⟩, v, hv⟩ := id haims
  have hedge : base.Leads (file, place) (target, spot) := ⟨t, ht, ref, href, rest, haims⟩
  have hlocate : ∀ s, Limited base home limit before finished stack s →
      ∃ u, u.path = v.path ∧ s.locate file ref = .ok (target, spot, u, rest) := by
    intro s hs
    obtain ⟨u, hu, hstage⟩ := hs.tokens target spot v hv
    exact ⟨u, hstage.path, locate_eq_ok_iff.mpr ⟨q, hq, hs.fileOf q file ▸ htarget, hsegments, hu⟩⟩
  refine ends_follow (fun s fault hs herror => ?_) fun s target' spot' u rest' hs hfound => ?_
  · obtain ⟨u, -, hlocated⟩ := hlocate s hs
    cases hlocated.symm.trans herror
  · obtain ⟨u, hpath, hlocated⟩ := hlocate s hs
    cases hlocated.symm.trans hfound
    obtain ⟨-, -, -, -, hu⟩ := locate_eq_ok_iff.mp hfound
    refine ⟨fun ready s => Limited base home limit before finished stack s ∧
      Reply base target spot v ready s, fun hpointers => ⟨hs, fun _ => ⟨u, hu, ?_⟩, nofun⟩,
      fun hpointers => ?_, fun ready => ?_⟩
    · exact hs.expands_of_pointers hbase hu hpointers
    · refine (hassemble before target spot v hedge hv).imp ?_ fun _ _ h => h
      rintro _ rfl
      exact ⟨hs, u, hu, hpointers⟩
    · refine (ends_answer_limited hexpands hdescend hpath ready).imp (fun _ h => h) ?_
      rintro r s' ⟨hs', hr⟩
      refine ⟨hs', hr.imp_right fun hlate => ⟨hlate.1, ?_⟩⟩
      exact (hs'.endangered hbase hv hlate.2).head hedge

/-- A pointer is replaced by what it stands for, or it stays and its token is reported. -/
theorem ends_replacement_limited (hbase : base.Sound) (ht : base.tokenAt? file place = some t)
    (href : ref ∈ t.value.outerPointers) (hstands : base.Stands file ref w)
    (hassemble : Assembles base home limit finished stack file place assemble)
    (noted : List String) :
    Ends (fun s => Limited base home limit before finished stack s ∧
        (noted ≠ [] → Reported s.problems file t.path))
      (replacement assemble file t.path ref) fun r s =>
        (∃ v, r = some v ∧ some w = some v ∧ Limited base home limit before finished stack s ∧
          (noted ≠ [] → Reported s.problems file t.path)) ∨
        (r = none ∧ Limited base home limit before finished stack s ∧
          (noted ++ [ref] ≠ [] → Reported s.problems file t.path)) := by
  rintro s ⟨hs, hnoted⟩
  have hfollow : Ends (Limited base home limit s.problems finished stack)
      (follow assemble file ref) _ := ends_follow_limited hbase ht href hstands hassemble
  refine ends_replacement (P := (· = s)) (hfollow.imp ?_ fun _ _ h => h) ?_ ?_ s rfl
  · rintro _ rfl
    exact hs.restart
  · rintro v s' ⟨hs', hr | ⟨⟨_, hr⟩, -⟩⟩
    · obtain rfl := Except.ok.inj hr
      exact Or.inl ⟨_, rfl, rfl, hs'.since hs.kept, fun hleft => (hnoted hleft).mono hs'.kept⟩
    · cases hr
  · rintro kind cause s' ⟨hs', hr | ⟨⟨_, hr⟩, hdanger⟩⟩
    · cases hr
    · cases hr
      obtain ⟨hreport, hreported⟩ := (hs'.since hs.kept).report ht hdanger cause (some ref)
      exact Or.inr ⟨rfl, hreport, fun _ => hreported⟩

end

/-! ### Assembling -/

/-- The rest of the work on a token: it is done, and it has the value to which it expands or is
reported. -/
theorem ends_complete_limited (hbase : base.Sound) (ht : base.tokenAt? file place = some t)
    (hgood : base.Good file place) (hstack : (file, t.path) ∉ stack) {hops : Nat}
    (hassemble : Assembles base home limit finished ((file, t.path) :: stack) file place
      (assembleToken hops)) :
    Ends (Limited base home limit before finished ((file, t.path) :: stack))
      (complete hops file place t) fun ready s =>
        Limited base home limit before finished stack s ∧ Reply base file place t ready s ∧
          (file, t.path) ∈ s.done := by
  obtain ⟨value, hexpands⟩ := hgood
  obtain ⟨part, rfl, hstands⟩ := hexpands.stands ht
  have htexts := hbase.refsAreTexts file place t ht
  have hparts : ∀ ref ∈ t.value.outerPointers, ∀ w, some (part ref) = some w → w.NoRefs := by
    rintro ref href _ ⟨⟩
    exact (hstands ref href).noRefs hbase.refsAreTexts
  have hexpand := @ends_expandFollowed _ (fun ref => some (part ref))
    (fun noted s => Limited base home limit before finished ((file, t.path) :: stack) s ∧
      (noted ≠ [] → Reported s.problems file t.path)) t.value htexts hparts
    (fun ref href noted =>
      ends_replacement_limited hbase ht href (hstands ref href) hassemble noted) []
  have hstored : ∀ value s, (t.value.Followed (fun ref => some (part ref)) value ∧
      Limited base home limit before finished ((file, t.path) :: stack) s ∧
        ([] ++ value.outerPointers ≠ [] → Reported s.problems file t.path)) →
      ∀ r, r = (s.close (file, t.path)).modifyToken file place (fun _ => t.assembled value) →
        Finishes base r.problems file place t value ∧
          Limited base home limit before finished stack r := by
    rintro value s ⟨hfollowed, hs, hreported⟩ _ rfl
    have hvalue : Finishes base s.problems file place t value := by
      by_cases hwhole : value.outerPointers = []
      · rw [hfollowed.whole hwhole]
        exact finishes_of_expands hbase hexpands
      · exact finishes_of_holdsPointer
          (holdsPointer_of_outerPointers hfollowed.refsAreTexts hwhole) (hreported hwhole)
    refine ⟨?_, hs.finish hbase ht hstack hvalue⟩
    rw [problems_modifyToken]
    exact hvalue
  have hdone : ∀ (s : Assembly) value, (file, t.path) ∈
      ((s.close (file, t.path)).modifyToken file place fun _ => t.assembled value).done := by
    intro s value
    rw [done_modifyToken]
    exact List.mem_cons_self
  refine ends_complete (hexpand.imp (fun _ hs => ⟨hs, fun hnil => absurd rfl hnil⟩)
    fun _ _ h => h) (fun value s hs hnone => ?_) (fun value s hs hleft r hr => ?_)
  · obtain ⟨⟨-, hready⟩ | ⟨hleft, -⟩, hlimited⟩ := hstored value s hs _ rfl
    · obtain ⟨u, hu, -⟩ := hs.2.1.tokens file place t ht
      exact ⟨hlimited, ⟨fun _ => ⟨_, tokenAt?_stored hu _, hready⟩, nofun⟩, hdone s value⟩
    · exact absurd hnone hleft
  · obtain ⟨⟨hnone, -⟩ | ⟨-, hreported⟩, hlimited⟩ := hstored value s hs r hr
    · exact absurd hnone hleft
    · -- The token has failed already, so nothing is added.
      have hsame : r.failed.putNew (file, t.path) .missing = r.failed :=
        if_pos (hlimited.marked file t.path hreported)
      rw [hsame]
      exact ⟨hlimited, ⟨nofun, fun _ => hreported⟩, hr ▸ hdone s value⟩

/-- A good token with pointers makes a hop. -/
theorem exists_leads (hbase : base.Sound) (ht : base.tokenAt? file place = some t)
    (hgood : base.Good file place) (hpointers : t.pointers ≠ []) :
    ∃ y, base.Leads (file, place) y := by
  obtain ⟨value, hexpands⟩ := hgood
  obtain ⟨part, -, hstands⟩ := hexpands.stands ht
  have houter : t.value.outerPointers ≠ [] := by
    intro hnone
    have hfree : (t.value.including fun _ => none).NoRefs :=
      Value.noRefs_including (hbase.refsAreTexts file place t ht) fun ref href => by
        rw [hnone] at href
        exact absurd href List.not_mem_nil
    rw [Value.including_none] at hfree
    exact hpointers ((hbase.tracked ht).pointers.trans hfree.scan_pointers)
  obtain ⟨ref, href⟩ := List.exists_mem_of_ne_nil _ houter
  obtain ⟨target, spot, rest, -, haims, -⟩ := hstands ref href
  exact ⟨(target, spot), t, ht, ref, href, rest, haims⟩

/-- How a token is come to when some hops have been made: it is the first one itself, or another
one leads to it to which one hop less leads down. -/
def ComesTo (base : Project) (first : String × Place) : Nat → String × Place → Prop
  | 0, y => y = first
  | n + 1, y => ∃ x, base.Descends first n x ∧ base.Leads x y

/-- A token that waits has not had its turn, so it does not stand before the first one. -/
theorem Limited.descends (h : Limited base home limit before finished stack s)
    {first : String × Place} {n hops : Nat} (ht : base.tokenAt? file place = some t)
    (hpointers : t.pointers ≠ []) (hdone : (file, t.path) ∉ s.done)
    (hfinished : ∀ x, base.Precedes x first → x ∈ finished)
    (hcomes : ComesTo base first n (file, place)) (hhops : n + hops = hopsWithin limit) :
    base.Descends first n (file, place) := by
  cases n with
  | zero => exact hcomes
  | succ n =>
    refine ⟨hcomes, fun hbefore => ?_⟩
    rcases h.finished _ (hfinished _ hbefore) t ht hpointers with hnow | ⟨hzero, -⟩
    · exact hdone hnow
    · omega

/-- A token with pointers has its turn if those to which it leads may have theirs. -/
theorem ends_turn_limited (hbase : base.Sound) (hgood : base.Good file place)
    (hlimit : isWritable limit = true ∨ ∀ x, ¬ base.Endangered home limit x) {spot : Place}
    (hfinished : ∀ x, base.Precedes x (home, spot) → x ∈ finished) {n hops : Nat}
    (ht : base.tokenAt? file place = some t) (hstack : (file, t.path) ∉ stack)
    (hcomes : ComesTo base (home, spot) n (file, place)) (hhops : n + hops = hopsWithin limit)
    (hbelow : ∀ m, hops = m + 1 → base.Descends (home, spot) n (file, place) →
      Assembles base home limit finished ((file, t.path) :: stack) file place (assembleToken m)) :
    Ends (fun s => Limited base home limit before finished stack s ∧
        ∃ u, s.tokenAt? file place = some u ∧ u.pointers ≠ [])
      (assembleToken hops file place) fun ready s =>
        Limited base home limit before finished stack s ∧ Reply base file place t ready s ∧
          ((file, t.path) ∈ s.done ∨ (hops = 0 ∧ Reported s.problems file t.path)) := by
  rintro s ⟨hs, u, hu, hpointers⟩
  obtain ⟨u', hu', hstage⟩ := hs.tokens file place t ht
  obtain rfl := Option.some.inj (hu.symm.trans hu')
  have hdescends : (file, u.path) ∉ s.done →
      u = t ∧ base.Descends (home, spot) n (file, place) := by
    intro hdone
    obtain rfl := hstage.waiting (hstage.path ▸ hdone)
    exact ⟨rfl, hs.descends ht hpointers hdone hfinished hcomes hhops⟩
  -- If no hop is left, the token is out of reach.
  have hdanger : (file, u.path) ∉ s.done → hops = 0 → base.Endangered home limit (file, place) := by
    rintro hdone rfl
    obtain ⟨rfl, hdescent⟩ := hdescends hdone
    exact ⟨_, .refl, ⟨spot, hhops ▸ hdescent⟩, exists_leads hbase ht hgood hpointers⟩
  have hvisited := visited hops hu
  generalize (assembleToken hops file place).run.run s = out at hvisited ⊢
  cases hvisited with
  | done hdone =>
    rw [hstage.path] at hdone ⊢
    have hreported := hs.reported_of_done ht hu hpointers hdone
    rw [hs.marked file t.path hreported]
    exact ⟨false, s, rfl, hs, ⟨nofun, fun _ => hreported⟩, Or.inl hdone⟩
  | running _ hrunning => exact absurd (hs.inProgress ▸ hstage.path ▸ hrunning) hstack
  | late hdone =>
    obtain ⟨rfl, -⟩ := hdescends hdone
    obtain ⟨hreport, hreported⟩ := (hs.fail (file, u.path)).report ht (hdanger hdone rfl)
      (.tooDeep s.maxDepth) none
    exact ⟨false, _, rfl, hreport, ⟨nofun, fun _ => hreported⟩, Or.inr ⟨rfl, hreported⟩⟩
  | unwritable hdone _ hnot =>
    rcases hlimit with hlimit | hsafe
    · rw [hs.maxDepth, hlimit] at hnot
      cases hnot
    · exact absurd (hdanger hdone rfl) (hsafe _)
  | fresh hdone =>
    obtain ⟨rfl, hdescent⟩ := hdescends hdone
    exact (ends_complete_limited hbase ht hgood hstack (hbelow _ rfl hdescent)).imp (fun _ h => h)
      (fun ready s h => ⟨h.1, h.2.1, Or.inl h.2.2⟩) _ (hs.begin hdone)

/-- A token with pointers is assembled, with the hops that are left after those that lead down to
it: it is ready or reported, and it is done if any hop was left. -/
theorem ends_assembleToken_limited (hbase : base.Sound)
    (hgood : ∀ file place t, base.tokenAt? file place = some t → base.Good file place)
    (hlimit : isWritable limit = true ∨ ∀ x, ¬ base.Endangered home limit x) {spot : Place}
    (hfinished : ∀ x, base.Precedes x (home, spot) → x ∈ finished) {n hops : Nat}
    (ht : base.tokenAt? file place = some t) (hleads : LedTo base stack (file, place))
    (hcomes : ComesTo base (home, spot) n (file, place)) (hhops : n + hops = hopsWithin limit) :
    Ends (fun s => Limited base home limit before finished stack s ∧
        ∃ u, s.tokenAt? file place = some u ∧ u.pointers ≠ [])
      (assembleToken hops file place) fun ready s =>
        Limited base home limit before finished stack s ∧ Reply base file place t ready s ∧
          ((file, t.path) ∈ s.done ∨ (hops = 0 ∧ Reported s.problems file t.path)) := by
  induction hops generalizing file place t stack before n with
  | zero =>
    have hstack : (file, t.path) ∉ stack := fun hmem =>
      not_good_of_mem hbase ht hleads hmem (hgood file place t ht)
    exact ends_turn_limited hbase (hgood file place t ht) hlimit hfinished ht hstack hcomes hhops
      nofun
  | succ hops ih =>
    have hstack : (file, t.path) ∉ stack := fun hmem =>
      not_good_of_mem hbase ht hleads hmem (hgood file place t ht)
    refine ends_turn_limited hbase (hgood file place t ht) hlimit hfinished ht hstack hcomes hhops
      ?_
    intro m hm hdescent before target next v hedge hv
    obtain rfl := Nat.succ.inj hm
    refine (ih hv (hleads.cons ht hedge) (n := n + 1) ⟨_, hdescent, hedge⟩ ?_).imp (fun _ h => h)
      fun ready s h => ⟨h.1, h.2.1⟩
    omega

/-! ### All places of a file -/

theorem mem_front_of_idxOf_lt {front back : List Place} {place x : Place}
    (h : (front ++ place :: back).idxOf x < (front ++ place :: back).idxOf place) : x ∈ front := by
  by_contra hx
  rw [List.idxOf_append_of_notMem hx] at h
  have hplace : (front ++ place :: back).idxOf place ≤ front.length := by
    by_cases hmem : place ∈ front
    · rw [List.idxOf_append_of_mem hmem]
      exact List.idxOf_le_length
    · rw [List.idxOf_append_of_notMem hmem, List.idxOf_cons_self]
      omega
  omega

/-- One place more has had its turn. -/
theorem Limited.turn {front : List Place}
    (h : Limited base home limit before {x | x.1 = home ∧ x.2 ∈ front} stack s)
    (hturn : ∀ t, base.tokenAt? home place = some t → t.pointers ≠ [] →
      (home, t.path) ∈ s.done ∨ (hopsWithin limit = 0 ∧ Reported s.problems home t.path)) :
    Limited base home limit before {x | x.1 = home ∧ x.2 ∈ front ++ [place]} stack s :=
  { h with
    finished := by
      rintro ⟨file, spot⟩ ⟨rfl, hmem⟩ t ht hpointers
      rcases List.mem_append.mp hmem with hmem | hmem
      · exact h.finished (file, spot) ⟨rfl, hmem⟩ t ht hpointers
      · obtain rfl := List.mem_singleton.mp hmem
        exact hturn t ht hpointers }

/-- The places of a file are assembled one after the other; those in front have had their turn. -/
theorem ends_assemblePlaces_limited (hbase : base.Sound)
    (hgood : ∀ file place t, base.tokenAt? file place = some t → base.Good file place)
    (hlimit : isWritable limit = true ∨ ∀ x, ¬ base.Endangered home limit x)
    {tree : Group} (htree : base.tree? home = some tree) (front places : List Place)
    (hplaces : tree.placedTokens.map Prod.fst = front ++ places) :
    Ends (Limited base home limit before {x | x.1 = home ∧ x.2 ∈ front} [])
      (assemblePlaces home places) fun _ =>
        Limited base home limit before {x | x.1 = home ∧ x.2 ∈ front ++ places} [] := by
  refine ends_places (J := fun front => Limited base home limit before
    {x | x.1 = home ∧ x.2 ∈ front} []) front places (fun _ s hs => hs.maxDepth) ?_ ?_
  · intro before place after s _ hs hnone
    refine hs.turn fun t ht hsome => Or.inl ?_
    by_contra hdone
    exact hsome (hnone t (hs.eq_of_waiting ht hdone))
  · rintro front' place after hfront s ⟨hs, u, hu, hleft⟩
    rw [hfront] at hplaces
    have hfinished : ∀ x, base.Precedes x (home, place) →
        x ∈ {x : String × Place | x.1 = home ∧ x.2 ∈ front'} := by
      rintro ⟨file, spot⟩ ⟨rfl, tree', htree', hlt⟩
      obtain rfl := Option.some.inj (htree.symm.trans htree')
      rw [hplaces] at hlt
      exact ⟨rfl, mem_front_of_idxOf_lt hlt⟩
    obtain ⟨t, ht⟩ := hs.present home place u hu
    refine (ends_assembleToken_limited hbase hgood hlimit hfinished ht
      (fun key hkey => absurd hkey List.not_mem_nil) (n := 0) rfl (Nat.zero_add _)).imp
        (fun _ h => h) ?_ s ⟨hs, u, hu, hleft⟩
    rintro ready s' ⟨hs', -, hturn⟩
    refine hs'.turn fun t' ht' _ => ?_
    obtain rfl := Option.some.inj (ht.symm.trans ht')
    exact hturn

theorem limited_start (hbase : base.Sound) (home : String) (limit : Int) :
    Limited base home limit [] {x | x.1 = home ∧ x.2 ∈ []} [] (start base limit) where
  maxDepth := rfl
  fileOf := fun _ _ => rfl
  keysDistinct := fun file tree htree => (hbase.prepared file tree htree).keysDistinct
  inProgress := rfl
  running := fun key hkey => absurd hkey List.not_mem_nil
  tokens := fun file place t ht =>
    ⟨t, ht, rfl, fun _ => rfl, fun hdone => absurd hdone List.not_mem_nil⟩
  present := fun file place u hu => ⟨u, hu⟩
  explained := fun e he => absurd he List.not_mem_nil
  failed := fun key kind hkind => by cases hkind
  marked := fun file path hreported => by
    obtain ⟨e, he, -⟩ := hreported
    cases he
  finished := fun x hx => absurd hx.2 List.not_mem_nil
  kept := fun e he => absurd he List.not_mem_nil

end DesignTokens.Assembly

namespace DesignTokens.Project

variable {p : Project}

/-- What an assembly with a limit makes of a file of good tokens: a token that the limit does not
endanger has the value to which it expands and nothing is reported on it. -/
structure WithinLimit (p : Project) (file : String) (limit : Int) (q : Project)
    (problems : List Problem) : Prop where
  depth : ∀ e ∈ problems, e.kind = .depth
  tokens : ∀ place t, p.tokenAt? file place = some t →
    ∃ u, q.tokenAt? file place = some u ∧
      ((u.pointers = [] ∧ p.Expands file place u.value) ∨
        (u.pointers ≠ [] ∧ Reported problems file t.path)) ∧
      (¬ p.Endangered file limit (file, place) →
        u.pointers = [] ∧ ¬ Reported problems file t.path)

theorem withinLimit_of_limited {file : String} {limit : Int} {places : List Place} {s : Assembly}
    (hp : p.Sound) (hplaces : ∀ place t, p.tokenAt? file place = some t → place ∈ places)
    (h : Assembly.Limited p file limit [] {x | x.1 = file ∧ x.2 ∈ places} [] s) :
    p.WithinLimit file limit s.project s.problems where
  depth := fun e he => (h.explained e he).kind
  tokens := fun place t ht => by
    obtain ⟨u, hu, hstage⟩ := h.tokens file place t ht
    have houtcome : (u.pointers = [] ∧ p.Expands file place u.value) ∨
        (u.pointers ≠ [] ∧ Reported s.problems file t.path) := by
      by_cases hpointers : u.pointers = []
      · exact Or.inl ⟨hpointers, h.expands_of_pointers hp hu hpointers⟩
      · refine Or.inr ⟨hpointers, ?_⟩
        by_cases hdone : (file, t.path) ∈ s.done
        · exact h.reported_of_done ht hu hpointers hdone
        · rw [hstage.waiting hdone] at hpointers
          rcases h.finished (file, place) ⟨rfl, hplaces place t ht⟩ t ht hpointers with
            hnow | ⟨-, hreported⟩
          · exact absurd hnow hdone
          · exact hreported
    refine ⟨u, hu, houtcome, fun hsafe => ?_⟩
    have hquiet : ¬ Reported s.problems file t.path := fun hreported =>
      hsafe (h.endangered hp ht hreported)
    rcases houtcome with ⟨hnone, -⟩ | ⟨-, hreported⟩
    · exact ⟨hnone, hquiet⟩
    · exact absurd hreported hquiet

theorem exists_limited (hp : p.Sound)
    (hgood : ∀ file place t, p.tokenAt? file place = some t → p.Good file place) (file : String)
    {maxDepth : Int}
    (hlimit : isWritable maxDepth = true ∨ ∀ x, ¬ p.Endangered file maxDepth x) :
    ∃ (s : Assembly) (places : List Place),
      p.assembleFile file maxDepth = (s.project, .ok s.problems) ∧
      (∀ place t, p.tokenAt? file place = some t → place ∈ places) ∧
        Assembly.Limited p file maxDepth [] {x | x.1 = file ∧ x.2 ∈ places} [] s := by
  exact exists_assembled hp (Assembly.limited_start hp file maxDepth) fun tree htree =>
    Assembly.ends_assemblePlaces_limited hp hgood hlimit htree []
      (tree.placedTokens.map Prod.fst) rfl

/-- **An assembly with a limit, where every token is good.**  It comes to an end if the limit can be
written or endangers no token.  All problems are about depth, and each token of the file has the
value to which it expands or keeps a pointer and is reported.  Only tokens that the limit endangers
are left or reported: there are none if no chain of hops in the file is longer than the limit
allows, and none if the limit is not negative and every token stands behind those at which it
aims. -/
theorem assembleFile_limited (hp : p.Sound)
    (hgood : ∀ file place t, p.tokenAt? file place = some t → p.Good file place) (file : String)
    (maxDepth : Int) (hlimit : isWritable maxDepth = true ∨ ∀ x, ¬ p.Endangered file maxDepth x) :
    ∃ q problems, p.assembleFile file maxDepth = (q, .ok problems) ∧
      p.WithinLimit file maxDepth q problems ∧
        ((∀ place, ¬ p.HasChain (Assembly.hopsWithin maxDepth + 1) (file, place)) → problems = []) ∧
          (0 ≤ maxDepth → (∀ place y, p.Leads (file, place) y → p.Precedes y (file, place)) →
            problems = []) := by
  obtain ⟨s, places, hrun, hplaces, hs⟩ := exists_limited hp hgood file hlimit
  have hempty : (∀ x, ¬ p.Endangered file maxDepth x) → s.problems = [] := by
    intro hsafe
    rw [List.eq_nil_iff_forall_not_mem]
    intro e he
    obtain ⟨-, other, place, t, -, -, -, hdanger⟩ := hs.explained e he
    exact hsafe _ hdanger
  refine ⟨s.project, s.problems, hrun, withinLimit_of_limited hp hplaces hs, ?_, ?_⟩
  · intro hshort
    apply hempty
    intro x hdanger
    obtain ⟨place, hchain⟩ := hdanger.hasChain
    exact hshort place hchain
  · intro hlimit hordered
    apply hempty
    intro x hdanger
    obtain ⟨place, y, hedge, hbehind⟩ := hdanger.exists_leads hlimit
    exact hbehind (hordered place y hedge)

/-! ### A chain of tokens -/

section

variable {file ref target : String} {place spot : Place} {t : Token}

theorem good_of_pointer (ht : p.tokenAt? file place = some t)
    (hvalue : t.value.outerPointers = [ref]) (haims : p.Aims file ref target spot [])
    (hgood : p.Good target spot) : p.Good file place := by
  obtain ⟨w, hw⟩ := hgood
  have hstands : ∀ other ∈ t.value.outerPointers, p.Stands file other w := by
    intro other hother
    rw [hvalue, List.mem_singleton] at hother
    rw [hother]
    exact ⟨target, spot, [], w, haims, hw, rfl⟩
  exact ⟨_, expands_of_stands ht hstands⟩

/-- A token with one pointer makes one hop. -/
theorem leads_iff_of_pointer (ht : p.tokenAt? file place = some t)
    (hvalue : t.value.outerPointers = [ref]) {rest : List String}
    (haims : p.Aims file ref target spot rest) {y : String × Place} :
    p.Leads (file, place) y ↔ y = (target, spot) := by
  constructor
  · rintro ⟨u, hu, other, hother, rest', haims'⟩
    obtain rfl := Option.some.inj (ht.symm.trans hu)
    rw [hvalue, List.mem_singleton] at hother
    subst hother
    obtain ⟨hfile, hplace, -⟩ := haims'.unique haims
    exact Prod.ext hfile hplace
  · rintro rfl
    refine ⟨t, ht, ref, ?_, rest, haims⟩
    rw [hvalue]
    exact List.mem_singleton_self ref

theorem not_leads_of_no_pointer (ht : p.tokenAt? file place = some t)
    (hvalue : t.value.outerPointers = []) {y : String × Place} : ¬ p.Leads (file, place) y := by
  rintro ⟨u, hu, other, hother, -⟩
  obtain rfl := Option.some.inj (ht.symm.trans hu)
  rw [hvalue] at hother
  cases hother

end

/-- A file in which each token takes over the one before it. -/
def stairs : Project :=
  build [("stairs.json", .object [
    ("base", .object [("$value", .int 4)]),
    ("one", .object [("$value", .object [("$ref", .text "#/base")])]),
    ("two", .object [("$value", .object [("$ref", .text "#/one")])])])]

theorem sound_stairs : stairs.Sound := by
  apply sound_build
  exact ⟨by decide +kernel, by decide +kernel, by decide +kernel, by decide +kernel⟩

theorem place_stairs {file : String} {place : Place} {t : Token}
    (h : stairs.tokenAt? file place = some t) :
    file = "stairs.json" ∧ place ∈ [["base"], ["one"], ["two"]] := by
  obtain ⟨tree, htree, hat⟩ := Option.bind_eq_some_iff.mp h
  obtain ⟨d, hd, rfl, rfl, -⟩ := exists_of_tree?_build htree
  have hkeys := (sound_stairs.prepared _ _ htree).keysDistinct
  obtain rfl := List.mem_singleton.mp hd
  have hm := (Group.mem_placedTokens_iff hkeys).mpr hat
  exact ⟨by rfl, List.mem_map_of_mem (f := Prod.fst) hm⟩

theorem aims_stairs : stairs.Aims "stairs.json" "#/base" "stairs.json" ["base"] [] ∧
    stairs.Aims "stairs.json" "#/one" "stairs.json" ["one"] [] := by
  constructor
  · exact ⟨⟨⟨"#/base", none, ["base"]⟩, by rfl, rfl, Or.inl ⟨rfl, rfl⟩⟩, _, rfl⟩
  · exact ⟨⟨⟨"#/one", none, ["one"]⟩, by rfl, rfl, Or.inl ⟨rfl, rfl⟩⟩, _, rfl⟩

theorem good_stairs {file : String} {place : Place} {t : Token}
    (h : stairs.tokenAt? file place = some t) : stairs.Good file place := by
  have hbase : stairs.Good "stairs.json" ["base"] := ⟨_, (expands_iff rfl).mpr ⟨rfl, rfl⟩⟩
  have hone : stairs.Good "stairs.json" ["one"] := good_of_pointer rfl rfl aims_stairs.1 hbase
  have htwo : stairs.Good "stairs.json" ["two"] := good_of_pointer rfl rfl aims_stairs.2 hone
  obtain ⟨rfl, hplace⟩ := place_stairs h
  simp only [List.mem_cons, List.not_mem_nil, or_false] at hplace
  rcases hplace with rfl | rfl | rfl
  · exact hbase
  · exact hone
  · exact htwo

theorem leads_stairs {place : Place} {y : String × Place} :
    stairs.Leads ("stairs.json", place) y ↔
      (place = ["one"] ∧ y = ("stairs.json", ["base"])) ∨
        (place = ["two"] ∧ y = ("stairs.json", ["one"])) := by
  constructor
  · intro h
    obtain ⟨t, ht, -⟩ := id h
    obtain ⟨-, hplace⟩ := place_stairs ht
    simp only [List.mem_cons, List.not_mem_nil, or_false] at hplace
    rcases hplace with rfl | rfl | rfl
    · exact absurd h (not_leads_of_no_pointer rfl rfl)
    · exact Or.inl ⟨rfl, (leads_iff_of_pointer rfl rfl aims_stairs.1).mp h⟩
    · exact Or.inr ⟨rfl, (leads_iff_of_pointer rfl rfl aims_stairs.2).mp h⟩
  · rintro (⟨rfl, rfl⟩ | ⟨rfl, rfl⟩)
    · exact (leads_iff_of_pointer rfl rfl aims_stairs.1).mpr rfl
    · exact (leads_iff_of_pointer rfl rfl aims_stairs.2).mpr rfl

theorem assembleFile_limited_stairs :
    stairs.Sound ∧ (∀ file place t, stairs.tokenAt? file place = some t → stairs.Good file place) ∧
      (isWritable 1 = true ∨ ∀ x, ¬ stairs.Endangered "stairs.json" 1 x) ∧
      (∀ place y, stairs.Leads ("stairs.json", place) y →
        stairs.Precedes y ("stairs.json", place)) ∧
        ∃ q, stairs.assembleFile "stairs.json" 1 = (q, .ok []) ∧
          stairs.WithinLimit "stairs.json" 1 q [] := by
  have hgood : ∀ file place t, stairs.tokenAt? file place = some t → stairs.Good file place :=
    fun file place t ht => good_stairs ht
  have hordered : ∀ place y, stairs.Leads ("stairs.json", place) y →
      stairs.Precedes y ("stairs.json", place) := by
    intro place y hedge
    rcases leads_stairs.mp hedge with ⟨rfl, rfl⟩ | ⟨rfl, rfl⟩
    · exact ⟨rfl, _, rfl, by decide +kernel⟩
    · exact ⟨rfl, _, rfl, by decide +kernel⟩
  obtain ⟨q, problems, hrun, hwithin, -, hempty⟩ :=
    assembleFile_limited sound_stairs hgood "stairs.json" 1 (Or.inl (by decide +kernel))
  obtain rfl := hempty (by decide) hordered
  exact ⟨sound_stairs, hgood, Or.inl (by decide +kernel), hordered, q, hrun, hwithin⟩

/-- The upper token makes a chain of two hops.  The limit is one hop, and yet the token is
assembled and nothing is reported. -/
theorem not_limited_by_hops :
    stairs.HasChain 2 ("stairs.json", ["two"]) ∧
      ((stairs.assembleFile "stairs.json" 1).1.tokenAt? "stairs.json" ["two"]).map Token.pointers =
        some [] ∧
        (stairs.assembleFile "stairs.json" 1).2.toOption.map List.length = some 0 := by
  refine ⟨⟨_, leads_stairs.mpr (Or.inr ⟨rfl, rfl⟩), _, leads_stairs.mpr (Or.inl ⟨rfl, rfl⟩),
    trivial⟩, by decide +kernel, by decide +kernel⟩

end DesignTokens.Project

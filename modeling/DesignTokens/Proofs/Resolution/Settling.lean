import DesignTokens.Proofs.Reference.Results
import DesignTokens.Proofs.Token.AliasGraph

/-!
# On what value a token settles

`Group.Settles` says without any order of work when a token can be resolved and to
which value: nothing in it is malformed or a pointer, all that it refers to settles,
no chain of aliases from it is longer than the limit, and the substitution has a
result.  It is a least fixed point, so there is nothing in it for a token on a cycle
(`Settles.not_onCycle`).

One condition is about the order of resolution.  A token can have its turn under a
path that is not its own, since a key without characters leaves no trace in a path;
`Group.InTime` asks that such a turn comes after those of the tokens it refers to.
Where every path leads to its own token, this is always so (`inTime_of_direct`).

The value is unique (`Settles.unique`) and holds no reference (`Settles.occurrences`).
-/

namespace DesignTokens.Group

variable {g : Group}

/-! ### Chains of aliases -/

/-- A chain of a number of aliases that starts at a token. -/
inductive AliasChain (g : Group) : Token → Nat → Prop
  | one {t : Token} {r : String} : r ∈ t.references → AliasChain g t 1
  | more {t x : Token} {r : String} {n : Nat} : r ∈ t.references → g.findToken? r = some x →
      AliasChain g x n → AliasChain g t (n + 1)

/-- The length of the longest chain that starts at a token; 0 if there is none. -/
structure IsLongest (g : Group) (t : Token) (d : Nat) : Prop where
  bound : ∀ n, g.AliasChain t n → n ≤ d
  reached : d = 0 ∨ g.AliasChain t d

theorem AliasChain.references_ne_nil {t : Token} {n : Nat} (h : g.AliasChain t n) :
    t.references ≠ [] := by
  cases h with
  | one hr => exact List.ne_nil_of_mem hr
  | more hr _ _ => exact List.ne_nil_of_mem hr

theorem AliasChain.le_succ {t : Token} {n d : Nat} (h : g.AliasChain t n)
    (hd : ∀ r ∈ t.references, ∀ x, g.findToken? r = some x → ∀ m, g.AliasChain x m → m ≤ d) :
    n ≤ d + 1 := by
  cases h with
  | one _ => exact Nat.le_add_left 1 d
  | more hr hx hchain => exact Nat.succ_le_succ (hd _ hr _ hx _ hchain)

theorem isLongest_zero {t : Token} (h : t.references = []) : g.IsLongest t 0 where
  bound := fun _ hn => absurd h hn.references_ne_nil
  reached := Or.inl rfl

/-- The longest chain goes on with the longest chain of a target. -/
theorem isLongest_of_targets {t : Token} {d : Nat} {depth : String → Nat}
    (htargets : ∀ r ∈ t.references, ∃ x, g.findToken? r = some x ∧ g.IsLongest x (depth r))
    (hbound : ∀ r ∈ t.references, depth r + 1 ≤ d)
    (hreached : d = 0 ∨ ∃ r ∈ t.references, d = depth r + 1) : g.IsLongest t d where
  bound := fun n hn => by
    cases hn with
    | one hr => exact Nat.le_trans (Nat.le_add_left 1 _) (hbound _ hr)
    | more hr hx hchain =>
      obtain ⟨y, hy, hlongest⟩ := htargets _ hr
      rw [hy] at hx
      rw [Option.some.inj hx] at hlongest
      exact Nat.le_trans (Nat.succ_le_succ (hlongest.bound _ hchain)) (hbound _ hr)
  reached := by
    refine hreached.imp_right ?_
    rintro ⟨r, hr, rfl⟩
    obtain ⟨x, hx, hlongest⟩ := htargets r hr
    rcases hlongest.reached with h0 | hchain
    · rw [h0]
      exact .one hr
    · exact .more hr hx hchain

/-! ### Turns -/

/-- Whether the token with a path has its turn after the tokens it refers to, also
when it has it under another path. -/
def InTime (g : Group) (path : String) : Prop :=
  ∀ q ∈ g.resolutionOrder, q ≠ path → ∀ t, g.findToken? q = some t → t.path = path →
    ∀ r ∈ t.references, ∀ x, g.findToken? r = some x → x.references ≠ [] →
      Graph.StandsBefore g.resolutionOrder r q

/-- Whether every path leads to the token that has it, if it leads to a token. -/
def Direct (g : Group) : Prop := ∀ q t, g.findToken? q = some t → t.path = q

theorem inTime_of_direct (h : g.Direct) (path : String) : g.InTime path := by
  intro q _ hne t ht hpath
  exact absurd ((h q t ht).symm.trans hpath) hne

/-! ### Settling -/

/-- A token settles on a value: it has nothing but aliases, these name tokens that
settle, and the value is its own with these values in their place. -/
inductive Settles (g : Group) (limit : Int) : Token → Value → Prop
  | intro {t : Token} {v : Value} (target : String → Token) (value : String → Value) :
      t.malformed = [] → t.pointers = [] →
      (∀ r ∈ t.references, g.findToken? r = some (target r)) →
      (∀ r ∈ t.references, Settles g limit (target r) (value r)) →
      (∀ n, g.AliasChain t n → (n : Int) ≤ limit) → g.InTime t.path →
      t.value.substitute (fun r => .ok (value r)) = .ok v → Settles g limit t v

namespace Settles

variable {limit : Int} {place : Place} {t : Token} {v w : Value}

theorem of_resolved (h : g.Prepared) (ht : g.tokenAt? place = some t)
    (hresolved : t.resolved = true) : g.Settles limit t t.value := by
  have htracked := h.tracked place t ht
  obtain ⟨hreferences, hpointers, hmalformed⟩ := htracked.resolved_iff.mp hresolved
  have hnone : ∀ r, r ∉ t.references := fun r hr => List.not_mem_nil (hreferences ▸ hr)
  refine .intro (fun _ => t) (fun _ => .null) hmalformed hpointers
    (fun r hr => absurd hr (hnone r)) (fun r hr => absurd hr (hnone r))
    (fun n hn => absurd hreferences hn.references_ne_nil) ?_ ?_
  · intro q _ _ u hu hpath r hr
    rw [h.placed.eq_of_path_eq hu ht hpath] at hr
    exact absurd hr (hnone r)
  · exact Value.substitute_of_occurrences_eq_nil (htracked.onlyAliases hpointers hmalformed)
      (htracked.occurrences_eq_nil hresolved)

theorem resolved_of_references (hv : g.Settles limit t v) (htracked : t.Tracked)
    (hreferences : t.references = []) : t.resolved = true := by
  cases hv with
  | intro target value hmalformed hpointers _ _ _ _ _ =>
    exact htracked.resolved_iff.mpr ⟨hreferences, hpointers, hmalformed⟩

theorem unique (h : g.Prepared) (ht : g.tokenAt? place = some t) (hv : g.Settles limit t v)
    (hw : g.Settles limit t w) : v = w := by
  induction hv generalizing place w with
  | intro target value hmalformed hpointers hfound _ _ _ hvalue ih =>
    cases hw with
    | intro target' value' _ _ hfound' hsettled' _ _ hvalue' =>
      have htracked := h.tracked place _ ht
      have hsame : ∀ r ∈ _, value r = value' r := fun r hr => by
        have htarget := Option.some.inj ((hfound r hr).symm.trans (hfound' r hr))
        exact ih r hr (hfound r hr) (htarget ▸ hsettled' r hr)
      rw [Value.substitute_congr (htracked.onlyAliases hpointers hmalformed) fun a ha =>
        congrArg Except.ok (hsame a (htracked.mem_references ha)), hvalue'] at hvalue
      exact (Except.ok.inj hvalue).symm

theorem occurrences (h : g.Prepared) (ht : g.tokenAt? place = some t)
    (hv : g.Settles limit t v) : v.occurrences = [] := by
  induction hv generalizing place with
  | intro target value hmalformed hpointers hfound _ _ _ hvalue ih =>
    have htracked := h.tracked place _ ht
    refine Value.occurrences_of_substitute (htracked.onlyAliases hpointers hmalformed).aliases ?_
      hvalue
    intro a ha x hx
    rw [← Except.ok.inj hx]
    have hr := htracked.mem_references ha
    exact ih a hr (hfound a hr)

theorem not_onCycle (h : g.Prepared) (ht : g.tokenAt? place = some t)
    (hv : g.Settles limit t v) : ¬ g.OnCycle t.path := by
  induction hv generalizing place with
  | @intro t v target value _ _ hfound _ _ _ _ ih =>
    intro hcycle
    obtain ⟨other, u, hu, hpath, r, hr, hnext⟩ := hcycle.exists_next h
    rw [h.placed.eq_of_path_eq hu ht hpath] at hr
    have hsegments := (h.tracked place t ht).hasSegments r hr
    refine ih r hr (hfound r hr) ?_
    rw [h.placed.path_of_findToken hsegments (hfound r hr)]
    exact hnext

end Settles

end DesignTokens.Group

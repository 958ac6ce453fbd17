import DesignTokens.Proofs.Assembly.Trees
import DesignTokens.Proofs.Reference.Inclusion
import Mathlib.Logic.Relation

/-!
# To what a token of a project expands

`Project.Expands` says without any order of work what value a token has once its pointers
are followed: every outermost pointer aims at a token that expands, the segments after it
lead to a part of that value, and the part stands in the place of the pointer.  It is a
least fixed point, so there is nothing in it for a token on a cycle
(`Expands.not_cycle`).

The value is unique (`Expands.unique`) and has no `$ref` member (`Expands.noRefs`).
`Project.Stands` says of one pointer for what it stands.
-/

namespace DesignTokens

namespace Project

def tokenAt? (p : Project) (file : String) (place : Place) : Option Token :=
  (p.tree? file).bind fun tree => tree.tokenAt? place

/-- The file that a pointer of a file names, if it is loaded. -/
def fileOf? (p : Project) (q : Pointer) (file : String) : Option String :=
  match q.file with
  | none => some file
  | some name => if p.linked then (p.file? name (fileName? file)).map TokenFile.path else none

/-- A pointer of a file aims at the token at a place of a file: it can be read, it names that
file, and its segments lead to the token and go on with a rest. -/
structure Aims (p : Project) (file ref target : String) (place : Place) (rest : List String) :
    Prop where
  pointer : ∃ q, Pointer.parse ref = .ok q ∧ p.fileOf? q file = some target ∧
    ((q.segments = place ∧ rest = []) ∨ q.segments = place ++ valueKey :: rest)
  token : ∃ t, p.tokenAt? target place = some t

/-- A token expands to a value: its outermost pointers aim at tokens that expand, and what the
rest of each leads to stands in its place. -/
inductive Expands (p : Project) : String → Place → Value → Prop
  | intro {file : String} {place : Place} {t : Token} (target : String → String)
      (spot : String → Place) (rest : String → List String) (whole part : String → Value) :
      p.tokenAt? file place = some t →
      (∀ ref ∈ t.value.outerPointers, p.Aims file ref (target ref) (spot ref) (rest ref)) →
      (∀ ref ∈ t.value.outerPointers, Expands p (target ref) (spot ref) (whole ref)) →
      (∀ ref ∈ t.value.outerPointers,
        Pointer.descend ref (whole ref) (rest ref) = .ok (.ok (part ref))) →
      Expands p file place (t.value.including fun ref => some (part ref))

/-- A pointer of a file stands for a value. -/
def Stands (p : Project) (file ref : String) (w : Value) : Prop :=
  ∃ target place rest whole, p.Aims file ref target place rest ∧ p.Expands target place whole ∧
    Pointer.descend ref whole rest = .ok (.ok w)

/-- A token is good if it expands. -/
def Good (p : Project) (file : String) (place : Place) : Prop := ∃ v, p.Expands file place v

variable {p : Project} {file ref target target' : String} {place place' : Place}
  {rest rest' : List String} {t : Token} {v w : Value}

theorem Aims.walk (h : p.Aims file ref target place rest) :
    ∃ q tree t, Pointer.parse ref = .ok q ∧ p.fileOf? q file = some target ∧
      p.tree? target = some tree ∧ q.target tree = .ok (place, t, rest) := by
  obtain ⟨⟨q, hq, htarget, hsegments⟩, t, ht⟩ := h
  obtain ⟨tree, htree, hat⟩ := Option.bind_eq_some_iff.mp ht
  refine ⟨q, tree, t, hq, htarget, htree, ?_⟩
  exact Pointer.walk_eq_ok_iff.mpr ⟨place, rfl, hat, hsegments⟩

theorem Aims.unique (h : p.Aims file ref target place rest)
    (h' : p.Aims file ref target' place' rest') :
    target = target' ∧ place = place' ∧ rest = rest' := by
  obtain ⟨q, tree, t, hq, htarget, htree, hwalk⟩ := h.walk
  obtain ⟨q', tree', t', hq', htarget', htree', hwalk'⟩ := h'.walk
  obtain rfl := Except.ok.inj (hq.symm.trans hq')
  obtain rfl := Option.some.inj (htarget.symm.trans htarget')
  obtain rfl := Option.some.inj (htree.symm.trans htree')
  obtain ⟨rfl, hrest⟩ := Prod.mk.inj (Except.ok.inj (hwalk.symm.trans hwalk'))
  exact ⟨rfl, rfl, (Prod.mk.inj hrest).2⟩

/-! ### Expansion -/

theorem expands_of_stands (ht : p.tokenAt? file place = some t) {part : String → Value}
    (h : ∀ ref ∈ t.value.outerPointers, p.Stands file ref (part ref)) :
    p.Expands file place (t.value.including fun ref => some (part ref)) := by
  choose! target place' rest whole haims hexpands hdescend using h
  exact .intro target place' rest whole part ht haims hexpands hdescend

theorem Expands.stands (h : p.Expands file place v) (ht : p.tokenAt? file place = some t) :
    ∃ part : String → Value, v = t.value.including (fun ref => some (part ref)) ∧
      ∀ ref ∈ t.value.outerPointers, p.Stands file ref (part ref) := by
  cases h with
  | intro target place' rest whole part ht' haims hexpands hdescend =>
    obtain rfl := Option.some.inj (ht.symm.trans ht')
    exact ⟨part, rfl, fun ref href =>
      ⟨target ref, place' ref, rest ref, whole ref, haims ref href, hexpands ref href,
        hdescend ref href⟩⟩

theorem Expands.unique (h : p.Expands file place v) (h' : p.Expands file place w) : v = w := by
  induction h generalizing w with
  | intro target place' rest whole part ht haims _ hdescend ih =>
    cases h' with
    | intro target₂ place₂ rest₂ whole₂ part₂ ht₂ haims₂ hexpands₂ hdescend₂ =>
      obtain rfl := Option.some.inj (ht.symm.trans ht₂)
      refine Value.including_congr fun ref href => congrArg some ?_
      obtain ⟨he, he', hrest⟩ := (haims ref href).unique (haims₂ ref href)
      have hwhole : whole ref = whole₂ ref := by
        refine ih ref href ?_
        rw [he, he']
        exact hexpands₂ ref href
      have hpart := hdescend ref href
      rw [hwhole, hrest, hdescend₂ ref href] at hpart
      exact (Except.ok.inj (Except.ok.inj hpart)).symm

theorem Stands.unique (h : p.Stands file ref v) (h' : p.Stands file ref w) : v = w := by
  obtain ⟨target, place, rest, whole, haims, hexpands, hdescend⟩ := h
  obtain ⟨target', place', rest', whole', haims', hexpands', hdescend'⟩ := h'
  obtain ⟨rfl, rfl, rfl⟩ := haims.unique haims'
  obtain rfl := hexpands.unique hexpands'
  exact Except.ok.inj (Except.ok.inj (hdescend.symm.trans hdescend'))

theorem Expands.noRefs (htexts : ∀ file place t, p.tokenAt? file place = some t →
    t.value.RefsAreTexts) (h : p.Expands file place v) : v.NoRefs := by
  induction h with
  | intro target place' rest whole part ht _ _ hdescend ih =>
    refine Value.noRefs_including (htexts _ _ _ ht) fun ref href => ⟨part ref, rfl, ?_⟩
    exact Pointer.everyObject_of_descend (ih ref href) (hdescend ref href)

theorem Stands.noRefs (htexts : ∀ file place t, p.tokenAt? file place = some t →
    t.value.RefsAreTexts) (h : p.Stands file ref w) : w.NoRefs := by
  obtain ⟨target, place, rest, whole, -, hexpands, hdescend⟩ := h
  exact Pointer.everyObject_of_descend (hexpands.noRefs htexts) hdescend

/-! ### Cycles -/

/-- One of the outermost pointers of a token aims at another token. -/
def Leads (p : Project) (x y : String × Place) : Prop :=
  ∃ t, p.tokenAt? x.1 x.2 = some t ∧
    ∃ ref ∈ t.value.outerPointers, ∃ rest, p.Aims x.1 ref y.1 y.2 rest

theorem Leads.exists_token {x y : String × Place} (h : p.Leads x y) :
    ∃ t, p.tokenAt? y.1 y.2 = some t := by
  obtain ⟨_, _, _, _, _, haims⟩ := h
  exact haims.token

/-- A token on a cycle does not expand. -/
theorem Expands.not_cycle (h : p.Expands file place v) :
    ¬ Relation.TransGen p.Leads (file, place) (file, place) := by
  induction h with
  | @intro file place t target place' rest whole part ht haims _ _ ih =>
    intro hcycle
    obtain ⟨y, ⟨t', ht', ref, href, rest', haims'⟩, hback⟩ :=
      Relation.TransGen.head'_iff.mp hcycle
    obtain rfl := Option.some.inj (ht.symm.trans ht')
    obtain ⟨he, he', -⟩ := (haims ref href).unique haims'
    refine ih ref href ?_
    have hy : y = (target ref, place' ref) := Prod.ext he.symm he'.symm
    rw [← hy]
    exact Relation.TransGen.tail' hback ⟨t, ht, ref, href, rest', haims'⟩

end Project

end DesignTokens

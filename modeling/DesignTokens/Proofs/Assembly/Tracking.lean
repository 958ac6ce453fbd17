import DesignTokens.Proofs.Assembly.Inclusive
import DesignTokens.Proofs.Assembly.Readable
import DesignTokens.Reference.Resolution

/-!
# The references that an assembled token tracks

A token is accurate if the references that it tracks are those in its value
(`Token.Accurate`).  A token is assembled by replacing whole objects, but it only ever adds to
what it tracks.  So what it tracks afterwards are the references of its new value, and those
that stood beside a pointer in its old one (`tracked_assembleFile`), whether or not something
has put them back.
-/

namespace DesignTokens

namespace Value

mutual

/-- The references in the other members of the objects that hold an outermost pointer. -/
def beside : Value → List Occurrence
  | .list items => besideOfItems items
  | .object members =>
    match pointerOf? members with
    | some _ => occurrencesOfMembers members
    | none => besideOfMembers members
  | _ => []

def besideOfItems : List Value → List Occurrence
  | [] => []
  | v :: items => v.beside ++ besideOfItems items

def besideOfMembers : List (String × Value) → List Occurrence
  | [] => []
  | (key, v) :: members =>
    (if key = pointerKey then [] else v.beside) ++ besideOfMembers members

end

variable {items : List Value} {members : List (String × Value)} {o : Occurrence} {v w : Value}

theorem mem_beside_list : o ∈ (Value.list items).beside ↔ ∃ v ∈ items, o ∈ v.beside := by
  rw [beside]
  induction items with
  | nil => simp [besideOfItems]
  | cons v items ih => rw [besideOfItems, List.mem_append, ih]; simp

theorem mem_beside_pointer {ref : String} (h : pointerOf? members = some ref) :
    o ∈ (Value.object members).beside ↔
      ∃ m ∈ members, m.1 ≠ pointerKey ∧ o ∈ m.2.occurrences := by
  rw [beside, h, mem_occurrencesOfMembers]

theorem mem_beside_object (h : pointerOf? members = none) :
    o ∈ (Value.object members).beside ↔ ∃ m ∈ members, m.1 ≠ pointerKey ∧ o ∈ m.2.beside := by
  rw [beside, h]
  dsimp only
  clear h
  induction members with
  | nil => simp [besideOfMembers]
  | cons m members ih =>
    obtain ⟨key, v⟩ := m
    rw [besideOfMembers, List.mem_append, ih]
    by_cases hk : key = pointerKey
    · simp [hk]
    · simp [hk]

/-- What stands beside a pointer stands in the value. -/
theorem mem_occurrences_of_beside (h : o ∈ v.beside) : o ∈ v.occurrences := by
  induction v using inductionOn with
  | list items ih =>
    obtain ⟨v, hv, ho⟩ := mem_beside_list.mp h
    exact mem_occurrences_list.mpr ⟨v, hv, ih v hv ho⟩
  | object members ih =>
    refine mem_occurrences_object.mpr (Or.inr ?_)
    cases hp : pointerOf? members with
    | some ref => exact (mem_beside_pointer hp).mp h
    | none =>
      obtain ⟨m, hm, hkey, ho⟩ := (mem_beside_object hp).mp h
      exact ⟨m, hm, hkey, ih m hm ho⟩
  | _ => cases h

/-- Whether every alias and every malformed text of a value stands in another one, unless it stands
beside a pointer. -/
def Grows (v w : Value) : Prop :=
  ∀ o ∈ v.occurrences, o.pointer? = none → o ∈ w.occurrences ∨ o ∈ v.beside

theorem Grows.refl (v : Value) : v.Grows v := fun _ ho _ => Or.inl ho

theorem Grows.list {results : List Value} (h : List.Forall₂ Grows items results) :
    (Value.list items).Grows (.list results) := by
  intro o ho hkind
  obtain ⟨v, hv, ho⟩ := mem_occurrences_list.mp ho
  have hback : List.Forall₂ (fun w v => Grows v w) results items := List.Forall₂.flip h
  obtain ⟨w, hw, hgrows⟩ := exists_mem_of_forall₂ hback hv
  refine (hgrows o ho hkind).imp (fun ho => ?_) fun ho => ?_
  · exact mem_occurrences_list.mpr ⟨w, hw, ho⟩
  · exact mem_beside_list.mpr ⟨v, hv, ho⟩

theorem Grows.object {results : List (String × Value)} (hp : pointerOf? members = none)
    (h : List.Forall₂ (fun m n => m.1 = n.1 ∧ m.2.Grows n.2) members results) :
    (Value.object members).Grows (.object results) := by
  intro o ho hkind
  rcases mem_occurrences_object.mp ho with ⟨ref, href, -⟩ | ⟨m, hm, hkey, ho⟩
  · rw [hp] at href
    cases href
  · have hback : List.Forall₂ (fun n m => m.1 = n.1 ∧ m.2.Grows n.2) results members :=
      List.Forall₂.flip h
    obtain ⟨n, hn, hname, hgrows⟩ := exists_mem_of_forall₂ hback hm
    refine (hgrows o ho hkind).imp (fun ho => ?_) fun ho => ?_
    · exact mem_occurrences_object.mpr (Or.inr ⟨n, hn, hname ▸ hkey, ho⟩)
    · exact (mem_beside_object hp).mpr ⟨m, hm, hkey, ho⟩

theorem Grows.pointer {ref : String} (hp : pointerOf? members = some ref) (w : Value) :
    (Value.object members).Grows w := by
  intro o ho hkind
  rcases mem_occurrences_object.mp ho with ⟨ref, -, rfl⟩ | hbelow
  · cases hkind
  · exact Or.inr ((mem_beside_pointer hp).mpr hbelow)

end Value

/-- Whether a token tracks just the references of its value. -/
structure Token.Accurate (t : Token) : Prop where
  references : ∀ a, a ∈ t.references ↔ .aliasOf a ∈ t.value.occurrences
  pointers : ∀ ref, ref ∈ t.pointers ↔ .pointer ref ∈ t.value.occurrences
  malformed : ∀ text, text ∈ t.malformed ↔ .malformed text ∈ t.value.occurrences

theorem Token.accurate_build (name path : String) (members : Table String Value)
    (parentPath inherited : Option String) :
    (Token.build name path members parentPath inherited).Accurate where
  references _ := Value.mem_aliases_iff
  pointers _ := Value.mem_pointers_iff
  malformed _ := Value.mem_malformed_iff

namespace Assembly

variable {base : Project} {s : Assembly} {file : String} {place : Place} {t u : Token}

/-- A token that may have been assembled: it is what it was, or it was given a value in which every
reference still stands that did not stand beside a pointer. -/
def Became (t u : Token) : Prop :=
  u = t ∨ ∃ value, t.value.Grows value ∧ u = t.assembled value

/-- Every token is one of before that may have been assembled, and what is not done was not. -/
structure Tracking (base : Project) (s : Assembly) : Prop where
  waiting : Waiting base s
  became : ∀ file place u, s.tokenAt? file place = some u →
    ∃ t, base.tokenAt? file place = some t ∧ Became t u

theorem tracking_start (base : Project) (maxDepth : Int) : Tracking base (start base maxDepth) where
  waiting := fun _ _ _ hu _ => hu
  became := fun _ _ u hu => ⟨u, hu, Or.inl rfl⟩

theorem storing_tracking (base : Project) :
    Storing (fun _ => True) (Tracking base) (fun _ => True) (fun _ => True)
      fun file place t value => base.tokenAt? file place = some t ∧ t.value.Grows value where
  of_project_eq {s r} h he _ hdone := by
    refine ⟨h.waiting.of_project_eq he hdone, fun file place u hu => ?_⟩
    rw [tokenAt?_congr he] at hu
    exact h.became file place u hu
  limit _ _ := trivial
  answer _ _ _ ready :=
    (keeps_answer_of_faults (fun _ _ _ => trivial) ready).imp fun _ _ _ _ => trivial
  expand {s file place t replace} h ht hnew hreplace := by
    have hbase := h.waiting file place t ht hnew
    have hgrows : Keeps (Tracking base) (expand replace t.value) t.value.Grows fun _ => True := by
      refine keeps_expand Value.Grows.refl Value.Grows.list Value.Grows.object ?_
      intro ref _ members hp
      exact (hreplace ref trivial).imp fun r _ => Value.Grows.pointer hp _
    exact hgrows.imp fun value hvalue => ⟨hbase, hvalue⟩
  assembled {s earlier file place t value} h _ _ _ hdone hvalue := by
    refine ⟨h.waiting.assembled hdone value, fun other next u hu => ?_⟩
    rw [tokenAt?_modifyToken] at hu
    split at hu
    · rename_i hsame
      obtain ⟨rfl, rfl⟩ := hsame
      obtain ⟨-, -, rfl⟩ := Option.map_eq_some_iff.mp hu
      exact ⟨t, hvalue.1, Or.inr ⟨value, hvalue.2, rfl⟩⟩
    · exact h.became other next u hu

end Assembly

/-- What is tracked by a token that was made of another one: the references of its value, and the
aliases and malformed texts that stood beside a pointer of the other one. -/
structure Token.Tracks (t u : Token) : Prop where
  references : ∀ a, a ∈ u.references ↔
    .aliasOf a ∈ u.value.occurrences ∨ .aliasOf a ∈ t.value.beside
  pointers : ∀ ref, ref ∈ u.pointers ↔ .pointer ref ∈ u.value.occurrences
  malformed : ∀ text, text ∈ u.malformed ↔
    .malformed text ∈ u.value.occurrences ∨ .malformed text ∈ t.value.beside

namespace Token

variable {t u : Token}

/-- What is added to the references of before makes up for what is lost, unless that stood beside a
pointer. -/
theorem Accurate.tracks (ht : t.Accurate) (h : Assembly.Became t u) : t.Tracks u := by
  rcases h with rfl | ⟨value, hgrows, rfl⟩
  · refine ⟨fun a => ?_, ht.pointers, fun text => ?_⟩
    · rw [ht.references, or_iff_left_of_imp Value.mem_occurrences_of_beside]
    · rw [ht.malformed, or_iff_left_of_imp Value.mem_occurrences_of_beside]
  · -- What stood in the old value stands in the new one or stood beside a pointer.
    have hmem : ∀ o : Occurrence, o.pointer? = none →
        (o ∈ t.value.occurrences ∨ o ∈ value.occurrences ↔
          o ∈ value.occurrences ∨ o ∈ t.value.beside) := by
      intro o hkind
      constructor
      · rintro (ho | ho)
        · exact hgrows o ho hkind
        · exact Or.inl ho
      · rintro (ho | ho)
        · exact Or.inr ho
        · exact Or.inl (Value.mem_occurrences_of_beside ho)
    refine ⟨fun a => ?_, fun ref => Value.mem_pointers_iff, fun text => ?_⟩
    · rw [mem_references_assembled, ht.references]
      exact hmem _ rfl
    · rw [mem_malformed_assembled, ht.malformed]
      exact hmem _ rfl

/-- Such a token is accurate exactly if what stood beside a pointer stands in its value. -/
theorem Tracks.accurate_iff (h : t.Tracks u) :
    u.Accurate ↔ ∀ o ∈ t.value.beside, o.pointer? = none → o ∈ u.value.occurrences := by
  constructor
  · intro hu o ho hkind
    cases o with
    | aliasOf a => exact (hu.references a).mp ((h.references a).mpr (Or.inr ho))
    | pointer ref => cases hkind
    | malformed text => exact (hu.malformed text).mp ((h.malformed text).mpr (Or.inr ho))
  · intro hback
    refine ⟨fun a => ?_, h.pointers, fun text => ?_⟩
    · rw [h.references, or_iff_left_of_imp fun ho => hback _ ho rfl]
    · rw [h.malformed, or_iff_left_of_imp fun ho => hback _ ho rfl]

end Token

namespace Project

variable {p : Project} {file home : String} {place : Place} {u : Token}

/-- **What tokens track after an assembly of a file**, if they were accurate before: the references
of their values, and the aliases and malformed texts that stood beside a pointer.  So they are
accurate again exactly if all of these stand in their values, whether or not a problem was found. -/
theorem tracked_assembleFile
    (hp : ∀ file place t, p.tokenAt? file place = some t → t.Accurate) (maxDepth : Int)
    (hu : (p.assembleFile file maxDepth).1.tokenAt? home place = some u) :
    ∃ t, p.tokenAt? home place = some t ∧ t.Tracks u ∧
      (u.Accurate ↔ ∀ o ∈ t.value.beside, o.pointer? = none → o ∈ u.value.occurrences) := by
  have htracking := ((Assembly.storing_tracking p).keeps_assembleFile file
    (Assembly.start p maxDepth) (Assembly.tracking_start p maxDepth)).kept
  obtain ⟨t, ht, hbecame⟩ := htracking.became home place u hu
  have htracks := (hp home place t ht).tracks hbecame
  exact ⟨t, ht, htracks, htracks.accurate_iff⟩

theorem accurate_build (documents : Table String Value) :
    ∀ file place t, (build documents).tokenAt? file place = some t → t.Accurate := by
  intro file place t ht
  obtain ⟨tree, htree, hat⟩ := Option.bind_eq_some_iff.mp ht
  obtain ⟨d, -, -, rfl, -⟩ := exists_of_tree?_build htree
  obtain ⟨name, members, parent, inherited, rfl⟩ := Group.tokenAt?_build hat
  exact Token.accurate_build _ _ _ _ _

/-- A document in which what is pasted in has the alias that stood beside the pointer. -/
def pastedBack : Table String Value :=
  [("tokens.json", .object [
    ("a", .object [(valueKey, .object [("width", .text "\x7bc\x7d")])]),
    ("b", .object [(valueKey, .object [("$ref", .text "#/a"), ("x", .text "\x7bc\x7d")])]),
    ("c", .object [(valueKey, .int 1)])])]

theorem tracked_assembleFile_pastedBack :
    (∀ file place t, (build pastedBack).tokenAt? file place = some t → t.Accurate) ∧
      ∃ u, ((build pastedBack).assembleFile "tokens.json" 10).1.tokenAt? "tokens.json" ["b"] =
          some u ∧ u.Accurate ∧ u.value.occurrences = [.aliasOf "c"] := by
  have hp := accurate_build pastedBack
  have hrun : (((build pastedBack).assembleFile "tokens.json" 10).1.tokenAt? "tokens.json"
      ["b"]).map (·.value.occurrences) = some [.aliasOf "c"] := by decide +kernel
  obtain ⟨u, hu, hvalue⟩ := Option.map_eq_some_iff.mp hrun
  obtain ⟨t, ht, -, haccurate⟩ := tracked_assembleFile hp 10 hu
  have hbeside : t.value.beside = [.aliasOf "c"] := by
    have hmap : ((build pastedBack).tokenAt? "tokens.json" ["b"]).map (·.value.beside) =
        some [.aliasOf "c"] := by decide +kernel
    rw [ht] at hmap
    exact Option.some.inj hmap
  refine ⟨hp, u, hu, haccurate.mpr fun o ho _ => ?_, hvalue⟩
  rw [hvalue, ← hbeside]
  exact ho

/-- A document in which an alias stands beside a pointer. -/
def aliasBeside : Table String Value :=
  [("tokens.json", .object [
    ("a", .object [(valueKey, .int 1)]),
    ("b", .object [(valueKey, .object [("$ref", .text "#/a"), ("x", .text "\x7bgone\x7d")])])])]

/-- **An alias beside a pointer stays tracked, although its object is replaced.**  The assembly
reports nothing, but the resolution of aliases fails on it. -/
theorem not_tracked_assembleFile :
    (∀ file place t, (build aliasBeside).tokenAt? file place = some t → t.Accurate) ∧
      ((build aliasBeside).assembleFile "tokens.json" 10).2.toOption.map List.isEmpty =
        some true ∧
      (((build aliasBeside).assembleFile "tokens.json" 10).1.tokenAt? "tokens.json" ["b"]).map
          (fun u => (u.references, u.pointers, u.value.occurrences)) = some (["gone"], [], []) ∧
      (((build aliasBeside).assembleFile "tokens.json" 10).1.tree? "tokens.json").bind
          (fun g => ((Resolver.start 10).resolve g).2.2.toOption.map <| List.map fun problem =>
            (problem.kind, problem.path, problem.reference)) =
        some [(.missing, "b", some "\x7bgone\x7d")] :=
  ⟨accurate_build aliasBeside, by decide +kernel, by decide +kernel, by decide +kernel⟩

end Project

end DesignTokens

import DesignTokens.Proofs.Assembly.Documents
import DesignTokens.Proofs.Assembly.Stability

/-!
# Assemblies that no fault ends

Only a segment that consists of digits but writes no number can end an assembly, or a limit
that cannot be written, and only outermost pointers of tokens are followed.  A token is
assembled from what it was at the start, so no other pointers are ever followed, whatever
the values bring in that are put in their place (`storing_waiting`).  If none of these
pointers has such a segment and the limit can be written, the assembly comes to its end
(`Project.exists_assembleFile`).
-/

namespace DesignTokens

/-- No outermost pointer of a token has a segment that consists of digits but writes no number. -/
def Project.Readable (p : Project) : Prop :=
  ∀ file place t, p.tokenAt? file place = some t → ∀ ref ∈ t.value.outerPointers,
    Pointer.isReadable ref = true

namespace Assembly

variable {base : Project} {s : Assembly} {home file ref : String} {place : Place} {t : Token}
  {rest : List String}

theorem readable_of_locate (href : Pointer.isReadable ref = true)
    (h : s.locate home ref = .ok (file, place, t, rest)) :
    ∀ segment ∈ rest, Pointer.index segment ≠ .unreadable := by
  obtain ⟨q, hq, -, hsegments, -⟩ := locate_eq_ok_iff.mp h
  have hall := Pointer.readable_of_isReadable href hq
  rcases hsegments with ⟨-, rfl⟩ | hsegments
  · exact fun _ hm => absurd hm List.not_mem_nil
  · intro segment hm
    refine hall segment ?_
    rw [hsegments]
    exact List.mem_append_right _ (List.mem_cons_of_mem _ hm)

theorem keeps_answer_of_readable {I : Assembly → Prop} {E : NumeralFault → Prop}
    (hrest : ∀ segment ∈ rest, Pointer.index segment ≠ .unreadable) (ready : Bool) :
    Keeps I (answer ref file place t rest ready) (fun _ => True) E := by
  refine keeps_answer_of_faults (fun v e he => ?_) ready
  obtain ⟨result, hresult⟩ := Pointer.exists_descend hrest v
  rw [hresult] at he
  cases he

/-- Every token that is not done is what it was before. -/
def Waiting (base : Project) (s : Assembly) : Prop :=
  ∀ file place u, s.tokenAt? file place = some u → (file, u.path) ∉ s.done →
    base.tokenAt? file place = some u

theorem Waiting.of_project_eq (h : Waiting base s) {r : Assembly} (he : r.project = s.project)
    (hdone : s.done ⊆ r.done) : Waiting base r := by
  intro file place u hu hnew
  rw [tokenAt?_congr he] at hu
  exact h file place u hu fun hm => hnew (hdone hm)

theorem Waiting.assembled (h : Waiting base s) (hdone : (file, t.path) ∈ s.done) (value : Value) :
    Waiting base (s.modifyToken file place fun _ => t.assembled value) := by
  intro other next u hu hnew
  rw [tokenAt?_modifyToken] at hu
  rw [done_modifyToken] at hnew
  split at hu
  · rename_i hsame
    obtain ⟨-, -, rfl⟩ := Option.map_eq_some_iff.mp hu
    rw [hsame.1] at hnew
    exact absurd hdone hnew
  · exact h other next u hu hnew

theorem exists_run_of_keeps {α : Type} {I : Assembly → Prop} {m : AssemblyM α} {Q : α → Prop}
    (h : Keeps I m Q fun _ => False) (hs : I s) : ∃ a r, m.run.run s = (.ok a, r) := by
  have hfault := (h s hs).fault
  generalize m.run.run s = out at hfault
  obtain ⟨e | a, r⟩ := out
  · exact (hfault e rfl).elim
  · exact ⟨a, r, rfl⟩

/-- The same with a limit that can be written. -/
structure WaitingWithin (base : Project) (s : Assembly) : Prop where
  waiting : Waiting base s
  limit : isWritable s.maxDepth = true

theorem waitingWithin_start (base : Project) {maxDepth : Int} (h : isWritable maxDepth = true) :
    WaitingWithin base (start base maxDepth) :=
  ⟨fun _ _ _ hu _ => hu, h⟩

theorem storing_waiting (hbase : base.Readable) :
    Storing (fun _ => True) (WaitingWithin base) (fun ref => Pointer.isReadable ref = true)
      fun _ => False where
  of_project_eq h he hlimit hdone := ⟨h.waiting.of_project_eq he hdone, hlimit ▸ h.limit⟩
  limit h hlimit := by
    rw [h.limit] at hlimit
    cases hlimit
  answer _ hlocate href ready :=
    (keeps_answer_of_readable (readable_of_locate href hlocate) ready).imp fun _ _ _ _ => trivial
  expand {s file place t replace} h ht hnew hreplace := by
    have hreadable := hbase file place t (h.waiting file place t ht hnew)
    exact keeps_expand_each fun ref href =>
      (hreplace ref (hreadable ref href)).imp fun _ _ => trivial
  assembled h _ _ _ hdone _ := by
    refine ⟨h.waiting.assembled hdone _, ?_⟩
    rw [maxDepth_modifyToken]
    exact h.limit

end Assembly

/-- **An assembly comes to its end if no outermost pointer of a token has such a segment** and the
limit can be written. -/
theorem Project.exists_assembleFile {p : Project} (hp : p.Readable) (file : String)
    {maxDepth : Int} (hlimit : isWritable maxDepth = true) :
    ∃ q problems, p.assembleFile file maxDepth = (q, .ok problems) := by
  obtain ⟨⟨⟩, s, hrun⟩ := Assembly.exists_run_of_keeps
    ((Assembly.storing_waiting hp).keeps_assembleFile file) (Assembly.waitingWithin_start p hlimit)
  unfold assembleFile
  rw [hrun]
  exact ⟨_, _, rfl⟩

theorem Project.Readable.exists_run {p : Project} (hp : p.Readable) {maxDepth : Int}
    (hlimit : isWritable maxDepth = true) (files : List String) :
    ∃ s, (Assembly.assembleFiles files).run.run (Assembly.start p maxDepth) = (.ok (), s) := by
  obtain ⟨⟨⟩, s, hrun⟩ := Assembly.exists_run_of_keeps
    ((Assembly.storing_waiting hp).keeps_assembleFiles files)
      (Assembly.waitingWithin_start p hlimit)
  exact ⟨s, hrun⟩

end DesignTokens

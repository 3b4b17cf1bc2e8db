import Folio.Proofs.Replay

/-!
# Runs that do not disturb themselves

A run asks the file tree about some paths (`Build.asked`), and it makes something at some locations
(`Build.made`): its copies, and the directories above them that were missing. It is *quiet* if it
makes nothing at a path about which it asks.

In a quiet run the order of asking and making does not matter. **All paths about which it asks are
steady** (`Build.asked_steady`) between the file tree that it starts from and the one that it
leaves, as long as the latter can be asked at all. This last condition is not idle: below a
directory that the run makes, a path with a name that is too long cannot be told any more.
-/

namespace Folio

open FileTree

namespace Build

variable {b : Build} {t : FileTree} {v : Visit} {p : Path}

/-! ## What is asked and what is made -/

/-- The locations at which a run makes something: the copies, and all that was not there. -/
def made (b : Build) (t : FileTree) : List Location :=
  (b.run t).written.map Path.location ++
    (b.run t).tree.entries.keys.filter fun loc => (t.entryAt loc).isNone

/-- The paths about which a run asks. -/
def asked (b : Build) (t : FileTree) : List Path := b.source :: (b.visits t).flatMap b.askedAt

/-- A run makes nothing at a path about which it asks. -/
def Quiet (b : Build) (t : FileTree) : Prop := ∀ p ∈ b.asked t, p.location ∉ b.made t

instance (b : Build) (t : FileTree) : Decidable (b.Quiet t) :=
  inferInstanceAs (Decidable (∀ p ∈ b.asked t, p.location ∉ b.made t))

theorem mem_asked (hv : v ∈ b.visits t) (hp : p ∈ b.askedAt v) : p ∈ b.asked t :=
  List.mem_cons_of_mem _ (List.mem_flatMap.2 ⟨v, hv, hp⟩)

theorem mem_made_of_written (hp : p ∈ (b.run t).written) : p.location ∈ b.made t :=
  List.mem_append_left _ (List.mem_map_of_mem hp)

theorem mem_made_of_new {loc : Location} (hold : t.entryAt loc = none)
    (hnew : (b.run t).tree.entryAt loc ≠ none) : loc ∈ b.made t := by
  refine List.mem_append_right _ (List.mem_filter.2 ⟨?_, by simp [hold]⟩)
  cases loc with
  | nil => exact absurd hold (by simp)
  | cons n loc =>
      rw [entryAt_cons, Option.ne_none_iff_isSome] at hnew
      exact OrderedMap.get?_isSome.1 hnew

/-- What a visit asks about is named by a normal path. -/
theorem askedAt_normal (hb : b.Live) (hv : v ∈ b.visits t) (hp : p ∈ b.askedAt v) : p.Normal := by
  have hfile : ∀ file target, b.Maps v file target → file.Normal := fun file target hmaps =>
    (found_placed hb hv file target hmaps).1
  rw [askedAt, List.mem_append, List.mem_append] at hp
  rcases hp with (hkey | hdirective) | hlooked
  · obtain ⟨target, hmaps⟩ := Option.isSome_iff_exists.1 (OrderedMap.get?_isSome.2 hkey)
    exact hfile p target hmaps
  · obtain ⟨d, hd, rfl⟩ := List.mem_map.1 hdirective
    obtain ⟨⟨file, target⟩, hentry, hmem⟩ := List.mem_flatMap.1 (List.mem_filter.1 hd).1
    cases hds : (b.search v).directives file target with
    | error e => simp [hds, Except.toOption] at hmem
    | ok ds =>
        rw [hds] at hmem
        obtain ⟨-, -, hactual, -⟩ := Search.mem_directives hds hmem
        rw [hactual]
        exact Path.refer_normal (hfile file target (maps_iff_mem.2 hentry)).absolute _
  · obtain ⟨e, he, hlook⟩ := List.mem_filterMap.1 hlooked
    obtain ⟨⟨file, target⟩, hentry, path, rfl⟩ := Relink.copyEach_refers he hlook
    exact Path.refer_normal (hfile file target (maps_iff_mem.2 hentry)).absolute _

/-! ## Between the beginning and the end -/

section Runs

variable (hb : b.Live) (ht : t.LinkFree) (hrun : (b.run t).result.isOk)

include hb ht hrun

theorem run_changes_written :
    Changes (fun p => p ∈ (b.run t).written ∧ p ∉ b.written) t (b.run t).tree :=
  (run_runs hrun).changes hb (fun _ hv => hv) ht

theorem run_linkFree : (b.run t).tree.LinkFree := ht.of_changes (run_changes_written hb ht hrun)

omit hb ht in
theorem start_stage : Stage (b.made t) t (b.run t).tree t :=
  ⟨.refl t, (run_runs hrun).retains.toKeeps, fun _ _ => rfl⟩

omit hb ht hrun in
/-- What a tree of the run differs in from the first one stands where something is made. -/
theorem stage_of_changes {u : FileTree} (hbefore : Keeps t u) (hafter : Keeps u (b.run t).tree)
    (hchanges : Changes (fun p => p ∈ (b.run t).written ∧ p ∉ b.written) t u) :
    Stage (b.made t) t (b.run t).tree u := by
  refine ⟨hbefore, hafter, fun loc hloc => ?_⟩
  rcases hchanges loc with heq | ⟨p, hp, rfl, -⟩ | ⟨p, -, -, hnone, hdir⟩
  · exact heq
  · exact absurd (mem_made_of_written hp.1) hloc
  · exact absurd (mem_made_of_new hnone (by simp [hafter.directory hdir])) hloc

theorem end_stage : Stage (b.made t) t (b.run t).tree (b.run t).tree :=
  stage_of_changes (run_runs hrun).retains.toKeeps (.refl _) (run_changes_written hb ht hrun)

/-- **In a quiet run, all paths about which it asks are steady.** -/
theorem asked_steady (hquiet : b.Quiet t) (hanswers : ∀ p ∈ b.asked t, (b.run t).tree.Answers p) :
    ∀ p ∈ b.asked t, Steady (b.made t) t (b.run t).tree p := by
  intro p hp
  refine steady_of_not_mem (run_linkFree hb ht hrun) ?_ (hquiet p hp) (hanswers p hp)
  rcases List.mem_cons.1 hp with rfl | hmem
  · exact hb.normal.1
  · obtain ⟨v, hv, hasked⟩ := List.mem_flatMap.1 hmem
    exact askedAt_normal hb hv hasked

/-- Every place of a new build is one where a file is written. -/
theorem fits_of_maps (hnew : b.written = []) (hv : v ∈ b.visits t) {file target : Path}
    (hmaps : b.Maps v file target) : Fits (b.made t) (b.run t).tree target := by
  have hmem : target ∈ (b.run t).written :=
    (run_runs hrun).mem_written_iff.2 (.inr ⟨v, hv, file, hmaps⟩)
  obtain ⟨first, -, -, last, -, out, bytes, -, -, hfile⟩ :=
    exists_holds hb ht hrun hmem (by simp [hnew])
  exact ⟨(hmaps.placed hb hv).1, mem_made_of_written hmem, bytes, hfile⟩

end Runs

end Build

end Folio

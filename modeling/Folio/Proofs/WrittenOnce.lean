import Folio.Proofs.Copies
import Folio.Proofs.Placement
import Mathlib.Data.List.Nodup

/-!
# How often a place is written

A visit passes over the places that the visits before it have written. But within a visit nothing
asks whether two documents have the same place, and a document that is included from outside of the
source can get the place of one inside. Then the place is written twice, and the copy of the
first document is lost (`overlay_written_twice`).

**Theorem (`Build.run_writes`).** After a run that does not fail,

* the written places are those of the documents of the run,
* each of them is written once *just if* no visit has two documents for a place that is still to be
  written, which is so if all documents lie below the directory of the source, and
* what a place holds, where there are no links, is the copy of the last document for it in the first
  visit that has it.

All of this is an induction over the chain of visits (`Runs`).
-/

namespace Folio

open FileTree

namespace Build

variable {b : Build} {t t' : FileTree} {written written' : List Path} {v : Visit} {vs : List Visit}
  {file target : Path}

/-! ## Places of documents -/

/-- The visit gives the document this place. -/
def Maps (b : Build) (v : Visit) (file target : Path) : Prop :=
  (b.found v).targets.get? file = some target

instance (b : Build) (v : Visit) (file target : Path) : Decidable (b.Maps v file target) :=
  inferInstanceAs (Decidable ((b.found v).targets.get? file = some target))

/-- The visit has no two documents for a place that is still to be written. -/
def Separates (b : Build) (v : Visit) : Prop :=
  ∀ file file' target, b.Maps v file target → b.Maps v file' target → target ∉ v.written →
    file = file'

/-- Different documents of a run have different places, in one visit and in different ones. -/
def Distinct (b : Build) (t : FileTree) : Prop :=
  ∀ v ∈ b.visits t, ∀ v' ∈ b.visits t, ∀ file file' target, b.Maps v file target →
    b.Maps v' file' target → file = file'

/-- The document is the last one to which the visit gives the place. -/
def Settles (b : Build) (v : Visit) (file target : Path) : Prop :=
  ∃ before after, (b.found v).targets.entries = before ++ (file, target) :: after ∧
    target ∉ after.map Prod.snd

theorem maps_iff_mem : b.Maps v file target ↔ (file, target) ∈ (b.found v).targets.entries :=
  OrderedMap.get?_eq_some_iff

theorem Settles.maps (h : b.Settles v file target) : b.Maps v file target := by
  obtain ⟨before, after, hentries, -⟩ := h
  rw [maps_iff_mem, hentries]
  simp

theorem Maps.exists_settles (h : b.Maps v file target) : ∃ last, b.Settles v last target := by
  have hmem : target ∈ ((b.found v).targets.entries.map Prod.snd).reverse :=
    List.mem_reverse.2 (List.mem_map.2 ⟨_, maps_iff_mem.1 h, rfl⟩)
  obtain ⟨after, before, hsplit, hlast⟩ := List.eq_append_cons_of_mem hmem
  rw [List.reverse_eq_iff, List.reverse_append, List.reverse_cons, List.append_assoc,
    List.singleton_append] at hsplit
  obtain ⟨before', rest, hentries, -, hrest⟩ := List.map_eq_append_iff.1 hsplit
  obtain ⟨⟨last, _⟩, after', rfl, rfl, hafter⟩ := List.map_eq_cons_iff.1 hrest
  refine ⟨last, before', after', hentries, ?_⟩
  rw [hafter, List.mem_reverse]
  exact hlast

/-! ## What is written -/

theorem mem_new_iff {new : List Path} (h : (b.copies v).result = .ok new) :
    target ∈ new ↔ (∃ file, b.Maps v file target) ∧ target ∉ v.written := by
  rw [Relink.copyEach_result h, List.mem_filter, decide_eq_true_eq, List.mem_map]
  simp only [maps_iff_mem, Prod.exists, exists_eq_right]

/-- **The written places** are those of the documents. -/
theorem Runs.mem_written_iff (h : b.Runs t written vs t' written') :
    target ∈ written' ↔ target ∈ written ∨ ∃ v ∈ vs, ∃ file, b.Maps v file target := by
  induction h with
  | nil => simp
  | @cons v vs _ new _ _ _ hcopies _ ih =>
      rw [ih, List.mem_append, mem_new_iff hcopies, List.exists_mem_cons_iff]
      by_cases hold : target ∈ v.written
      · simp [hold]
      · simp [hold]

theorem nodup_new_iff {new : List Path} (h : (b.copies v).result = .ok new) :
    new.Nodup ↔ b.Separates v := by
  have hentries : (b.found v).targets.entries.Nodup := .of_map Prod.fst (b.found v).targets.nodup
  rw [Relink.copyEach_result h, List.filter_map,
    List.nodup_map_iff_inj_on (hentries.filter _)]
  simp only [List.mem_filter, Function.comp_apply, decide_eq_true_eq]
  constructor
  · intro hinj file file' target hfile hfile' hnew
    exact (Prod.mk.inj (hinj _ ⟨maps_iff_mem.1 hfile, hnew⟩ _ ⟨maps_iff_mem.1 hfile', hnew⟩ rfl)).1
  · rintro hsep ⟨file, target⟩ ⟨hmem, hnew⟩ ⟨file', _⟩ ⟨hmem', -⟩ rfl
    rw [hsep file file' target (maps_iff_mem.2 hmem) (maps_iff_mem.2 hmem') hnew]

/-- **No place is written twice** just if no visit writes one twice. -/
theorem Runs.nodup_written_iff (h : b.Runs t written vs t' written') :
    written'.Nodup ↔ written.Nodup ∧ ∀ v ∈ vs, b.Separates v := by
  induction h with
  | nil => simp
  | @cons v vs _ new _ _ _ hcopies _ ih =>
      have hdisjoint : v.written.Disjoint new := fun p hold hnew =>
        ((mem_new_iff hcopies).1 hnew).2 hold
      rw [ih, List.nodup_append', nodup_new_iff hcopies, List.forall_mem_cons]
      simp only [hdisjoint, and_true, and_assoc]

/-- A new place is written by a visit that finds it unwritten. -/
theorem Runs.exists_first (h : b.Runs t written vs t' written') (hmem : target ∈ written')
    (hnew : target ∉ written) :
    ∃ v ∈ vs, target ∉ v.written ∧ ∃ file, b.Maps v file target := by
  induction h with
  | nil => exact absurd hmem hnew
  | @cons v vs _ new _ _ _ hcopies _ ih =>
      by_cases hfirst : target ∈ new
      · exact ⟨v, List.mem_cons_self, hnew, ((mem_new_iff hcopies).1 hfirst).1⟩
      · obtain ⟨v', hv', hfirst'⟩ := ih hmem (by simp [hnew, hfirst])
        exact ⟨v', List.mem_cons_of_mem _ hv', hfirst'⟩

/-! ## What the places hold -/

/-- The targets of a visit are normal paths that start where the working directory does. -/
theorem Maps.placed (hb : b.Live) (hv : v ∈ b.visits t) (h : b.Maps v file target) :
    target.Normal ∧ target.anchor = b.workingDir.anchor :=
  (found_placed hb hv file target h).2

theorem copies_changes (hb : b.Live) (hv : v ∈ b.visits t) (ht : v.tree.LinkFree)
    {new : List Path} (h : (b.copies v).result = .ok new) :
    Changes (· ∈ new) v.tree (b.copies v).tree :=
  Relink.copyEach_changes_new ht (fun _ he => ((maps_iff_mem.2 he).placed hb hv).1) h

/-- **Visits change** nothing but the places that they write and what is above them. -/
theorem Runs.changes (hb : b.Live) (h : b.Runs t written vs t' written') {s : FileTree}
    (hvs : ∀ v ∈ vs, v ∈ b.visits s) (ht : t.LinkFree) :
    Changes (fun p => p ∈ written' ∧ p ∉ written) t t' := by
  induction h with
  | nil => exact .refl _ _
  | @cons v vs _ new _ _ _ hcopies hrest ih =>
      rw [List.forall_mem_cons] at hvs
      have hfirst := copies_changes hb hvs.1 ht hcopies
      refine (hfirst.mono fun p hp => ?_).trans
        ((ih hvs.2 (ht.of_changes hfirst)).mono fun p hp => ?_)
      · exact ⟨hrest.mem_written_iff.2 (.inl (List.mem_append_right _ hp)),
          ((mem_new_iff hcopies).1 hp).2⟩
      · exact ⟨hp.1, fun hold => hp.2 (List.mem_append_left _ hold)⟩

/-- The copy of a document as the visit makes it: after those of the documents found before. -/
def copyAt (b : Build) (v : Visit) (file target : Path) : Copy :=
  let before := (b.found v).targets.entries.takeWhile fun e => e.1 ≠ file
  ⟨(Relink.copyEach b.copying (b.found v).targets v.written before v.tree).tree,
    (b.found v).targets, file, target⟩

/-- The file at the place has the lines of the copy that the visit makes of the document. -/
def Holds (b : Build) (u : FileTree) (v : Visit) (file target : Path) : Prop :=
  ∃ out bytes, Relink.copyLines? b.copying (b.copyAt v file target) = some out ∧
    Document.bytes? b.encoding out = some bytes ∧ u.entryAt target.location = some (.file bytes)

/-- The documents in front of one of them are those up to it. -/
theorem takeWhile_entries {before after : List (Path × Path)}
    (h : (b.found v).targets.entries = before ++ (file, target) :: after) :
    ((b.found v).targets.entries.takeWhile fun e => e.1 ≠ file) = before := by
  have hnodup := (b.found v).targets.nodup
  rw [h, List.map_append, List.map_cons] at hnodup
  rw [h, List.takeWhile_append_of_pos]
  · simp
  · intro e he
    rw [decide_eq_true_eq]
    rintro rfl
    exact (List.nodup_append.1 hnodup).2.2 _ (List.mem_map_of_mem he) _ List.mem_cons_self rfl

/-- **What a place holds** in the end: the copy that is made last in the visit that writes it. -/
theorem Runs.holds (hb : b.Live) (h : b.Runs t written vs t' written') {s : FileTree}
    (hvs : ∀ v ∈ vs, v ∈ b.visits s) (ht : t.LinkFree) (hv : v ∈ vs)
    (hnew : target ∉ v.written) (hlast : b.Settles v file target) :
    b.Holds t' v file target := by
  obtain ⟨earlier, later, page, new, rfl, hearlier, -, hcopies, hlater⟩ := h.split hv
  have hthere := hlast.maps
  obtain ⟨before, after, hentries, hafter⟩ := hlast
  have htree := ht.of_changes (hearlier.changes hb (fun v hv => hvs v (by simp [hv])) ht)
  have hanchor := (hthere.placed hb (hvs v hv)).2
  have hnormal : ∀ e ∈ before ++ (file, target) :: after,
      e.2.Normal ∧ e.2.anchor = target.anchor := by
    intro e he
    rw [← hentries] at he
    have he' := (maps_iff_mem.2 he).placed hb (hvs v hv)
    exact ⟨he'.1, he'.2.trans hanchor.symm⟩
  have hcopies' := hcopies
  rw [copies, Relink.copyAll, hentries] at hcopies'
  obtain ⟨out, bytes, hout, hbytes, hentry⟩ :=
    Relink.copyEach_holds htree hnormal hnew hafter hcopies'
  refine ⟨out, bytes, ?_, hbytes, ?_⟩
  · rw [copyAt, takeWhile_entries hentries]
    exact hout
  · -- The visits behind do not write the place again.
    have hcopied := copies_changes hb (hvs v hv) htree hcopies
    refine (hlater.changes hb (fun v hv => hvs v (by simp [hv]))
      (htree.of_changes hcopied)).entryAt_eq ?_ ?_
    · rw [copies, Relink.copyAll, hentries]
      exact hentry
    · rintro p ⟨hp, hpnew⟩ hloc
      have hmem : target ∈ v.written ++ new :=
        List.mem_append_right _ ((mem_new_iff hcopies).2 ⟨⟨file, hthere⟩, hnew⟩)
      obtain hold | ⟨v', hv', file', hmaps'⟩ := hlater.mem_written_iff.1 hp
      · exact hpnew hold
      · have hp' := (hmaps'.placed hb (hvs v' (by simp [hv']))).2
        refine Relink.location_ne (hanchor.trans hp'.symm) ?_ hloc
        rintro rfl
        exact hpnew hmem

/-! ## Whole runs -/

theorem distinct_of_below (hb : b.Live)
    (hbelow : ∀ v ∈ b.visits t, ∀ file ∈ (b.found v).targets.keys,
      (b.home t).Below file ∧ file.anchor = (b.home t).anchor) : b.Distinct t := by
  have hmirrors : ∀ v ∈ b.visits t, ∀ file target, b.Maps v file target →
      Mirrors (b.home t) b.workingDir file target ∧ file.anchor = (b.home t).anchor :=
    fun v hv file target hmaps =>
      ⟨found_mirrors hb hv (fun p hp => (hbelow v hv p hp).1) file target hmaps,
        (hbelow v hv file (Search.mem_keys_of_get? hmaps)).2⟩
  intro v hv v' hv' file file' target hmaps hmaps'
  obtain ⟨hfile, hanchor⟩ := hmirrors v hv file target hmaps
  obtain ⟨hfile', hanchor'⟩ := hmirrors v' hv' file' target hmaps'
  exact hfile.file_eq hfile' (hanchor.trans hanchor'.symm)

theorem exists_holds (hb : b.Live) (ht : t.LinkFree) (hrun : (b.run t).result.isOk)
    (hmem : target ∈ (b.run t).written) (hnew : target ∉ b.written) :
    ∃ first ∈ b.visits t, target ∉ first.written ∧
      ∃ file, b.Settles first file target ∧ b.Holds (b.run t).tree first file target := by
  have hruns := run_runs hrun
  obtain ⟨first, hfirst, hunwritten, file, hmaps⟩ := hruns.exists_first hmem hnew
  obtain ⟨last, hlast⟩ := hmaps.exists_settles
  exact ⟨first, hfirst, hunwritten, last, hlast,
    hruns.holds hb (fun _ hv => hv) ht hfirst hunwritten hlast⟩

/-- **What a run writes.** The written places are those of the documents. None is written twice just
if every visit separates its documents; and documents below the source have places of their own. A
place holds the copy of the last document that the first visit with this place has for it. -/
theorem run_writes (hb : b.Live) (hrun : (b.run t).result.isOk) :
    (∀ target, target ∈ (b.run t).written ↔
      target ∈ b.written ∨ ∃ v ∈ b.visits t, ∃ file, b.Maps v file target) ∧
    ((b.run t).written.Nodup ↔ b.written.Nodup ∧ ∀ v ∈ b.visits t, b.Separates v) ∧
    ((∀ v ∈ b.visits t, ∀ file ∈ (b.found v).targets.keys,
      (b.home t).Below file ∧ file.anchor = (b.home t).anchor) → b.Distinct t) ∧
    (t.LinkFree → ∀ target ∈ (b.run t).written, target ∉ b.written →
      ∃ first ∈ b.visits t, target ∉ first.written ∧
        ∃ file, b.Settles first file target ∧ b.Holds (b.run t).tree first file target ∧
          (b.Distinct t → ∀ v ∈ b.visits t, ∀ file', b.Maps v file' target → file' = file)) := by
  have hruns := run_runs hrun
  refine ⟨fun target => hruns.mem_written_iff, hruns.nodup_written_iff, distinct_of_below hb, ?_⟩
  intro ht target hmem hnew
  obtain ⟨first, hfirst, hunwritten, file, hlast, hholds⟩ := exists_holds hb ht hrun hmem hnew
  refine ⟨first, hfirst, hunwritten, file, hlast, hholds, ?_⟩
  intro hdistinct v hv file' hmaps'
  exact hdistinct v hv first hfirst file' file target hmaps' hlast.maps

theorem ladder_writes :
    let p := ladder.run ladderTree
    (ladder.Live ∧ p.result.isOk ∧ ladderTree.LinkFree ∧
      ∀ v ∈ ladder.visits ladderTree, ∀ file ∈ (ladder.found v).targets.keys,
        (ladder.home ladderTree).Below file ∧ file.anchor = (ladder.home ladderTree).anchor) ∧
    (∀ target, target ∈ p.written ↔
      target ∈ ladder.written ∨ ∃ v ∈ ladder.visits ladderTree, ∃ file, ladder.Maps v file target) ∧
    (p.written.Nodup ↔ ladder.written.Nodup ∧ ∀ v ∈ ladder.visits ladderTree, ladder.Separates v) ∧
    ladder.Distinct ladderTree ∧
    ∀ target ∈ p.written, target ∉ ladder.written →
      ∃ first ∈ ladder.visits ladderTree, target ∉ first.written ∧
        ∃ file, ladder.Settles first file target ∧ ladder.Holds p.tree first file target ∧
          (ladder.Distinct ladderTree → ∀ v ∈ ladder.visits ladderTree, ∀ file',
            ladder.Maps v file' target → file' = file) := by
  intro p
  have hdone : p.result.isOk := by decide +kernel
  have hfree : ladderTree.LinkFree := linkFree_of_entries (by decide +kernel)
  have hall : ((ladder.visits ladderTree).all fun v => (ladder.found v).targets.keys.all fun file =>
      decide ((ladder.home ladderTree).Below file) &&
        decide (file.anchor = (ladder.home ladderTree).anchor)) = true := by
    decide +kernel
  simp only [List.all_eq_true, Bool.and_eq_true, decide_eq_true_eq] at hall
  obtain ⟨hwritten, hnodup, hdistinct, hholds⟩ := run_writes ladder_live hdone
  exact ⟨⟨ladder_live, hdone, hfree, hall⟩, hwritten, hnodup, hdistinct hall, hholds hfree⟩

/-- A document, and another one outside of the source that gets the same place. -/
def overlayTree : FileTree :=
  .ofFiles [("/docs/index.adoc", "include::x.adoc[]\ninclude::../out/x.adoc[]\n"),
    ("/docs/x.adoc", "one\n"), ("/out/x.adoc", "two\n")]

/-- A build of these documents below `/build/out`. -/
def overlay : Build :=
  ⟨Path.absolute overlayTree.cwdPath (.ofText "/docs/index.adoc".toList),
    Path.absolute overlayTree.cwdPath (.ofText "/build/out".toList), .empty, "utf-8".toList, [],
    none⟩

/-- **A place is written twice**, and the copy of the document in the source is lost. -/
theorem overlay_written_twice :
    let p := overlay.run overlayTree
    let place : Path := .ofText "/build/out/x.adoc".toList
    overlay.Live ∧ overlayTree.LinkFree ∧ p.result.isOk = true ∧
      p.written = [.ofText "/build/out/index.adoc".toList, place, place] ∧ ¬ p.written.Nodup ∧
      (∃ v ∈ overlay.visits overlayTree, overlay.Maps v (.ofText "/docs/x.adoc".toList) place ∧
        overlay.Maps v (.ofText "/out/x.adoc".toList) place) ∧
      p.tree.entryAt place.location =
        some (.file ("two\n".toList.map fun c => UInt8.ofNat c.toNat)) := by
  intro p place
  have hlive : overlay.Live := .of_isOk (by decide +kernel)
  have hfree : overlayTree.LinkFree := linkFree_of_entries (by decide +kernel)
  have hdone : p.result.isOk = true := by decide +kernel
  have hwritten : p.written = [.ofText "/build/out/index.adoc".toList, place, place] := by
    decide +kernel
  have htwice : ¬ p.written.Nodup := by
    rw [hwritten]
    simp
  have hboth : ((overlay.visits overlayTree).any fun v =>
      decide (overlay.Maps v (.ofText "/docs/x.adoc".toList) place) &&
        decide (overlay.Maps v (.ofText "/out/x.adoc".toList) place)) = true := by
    decide +kernel
  obtain ⟨v, hv, hmaps⟩ := List.any_eq_true.1 hboth
  simp only [Bool.and_eq_true, decide_eq_true_eq] at hmaps
  have hholds : p.tree.entryAt place.location =
      some (.file ("two\n".toList.map fun c => UInt8.ofNat c.toNat)) := by
    decide +kernel
  exact ⟨hlive, hfree, hdone, hwritten, htwice, ⟨v, hv, hmaps⟩, hholds⟩

end Build

end Folio

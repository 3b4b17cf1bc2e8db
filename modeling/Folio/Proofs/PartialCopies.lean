import Folio.Proofs.Denoting
import Folio.Proofs.Failures

/-!
# Copies that are broken off

When a copy cannot be made, the others in front of it have been made, and nothing is taken back.
This tells what that leaves, if the targets denote different files:

* a document that cannot be read, or of which a line cannot be changed, leaves **the file tree of
  the copies in front of it**, so that there is no trace of its own copy;
* a copy that cannot be written leaves its file or directories on the way to it;
* files of later copies are not touched, and each earlier copy is complete.

The targets may be written with `..` and lead through links, so the files are told by what the paths
denote.

Main result: `Relink.copyAll_breaksOff`.
-/

namespace Folio

open FileTree

namespace Relink

variable {how : Copying} {targets : Targets} {skip : List Path} {t u : FileTree}
  {file target : Path} {first : List Path}

/-- The file at the target holds the lines of a copy. -/
def Complete (how : Copying) (c : Copy) (u : FileTree) : Prop :=
  ∃ out bytes, copyLines? how c = some out ∧ Document.bytes? how.encoding out = some bytes ∧
    u.readFile c.target = .ok bytes

theorem copy_complete (h : (copy how targets file target t).result = .ok ()) :
    Complete how ⟨t, targets, file, target⟩ (copy how targets file target t).tree := by
  obtain ⟨out, hout, hwrite⟩ := copy_written h
  obtain ⟨t', bytes, -, ⟨-, e, hname, -, hbytes⟩, hfile⟩ := Document.write_eq_ok_iff.1 hwrite
  refine ⟨out, bytes, hout, ?_, readFile_of_writeFile hfile⟩
  rw [Document.bytes?, hname, Option.bind_some, hbytes]

/-- A copy stays complete when files that other paths denote are written. -/
theorem Complete.of_alters {c : Copy} {paths : Path → Prop} (h : Complete how c t)
    (hu : Alters paths t u) (hapart : ∀ p, paths p → t.Apart p c.target) : Complete how c u := by
  obtain ⟨out, bytes, hout, hbytes, hread⟩ := h
  exact ⟨out, bytes, hout, hbytes, (hu.spares hapart).content bytes hread⟩

/-- **Each copy is complete** after the others behind it, if they are made elsewhere. -/
theorem copyEach_complete {before after : List (Path × Path)} (hskip : target ∉ skip)
    (hapart : ∀ q ∈ after.map Prod.snd, t.Apart q target)
    (h : (copyEach how targets skip (before ++ (file, target) :: after) t).result = .ok first) :
    Complete how ⟨(copyEach how targets skip before t).tree, targets, file, target⟩
      (copyEach how targets skip (before ++ (file, target) :: after) t).tree := by
  obtain ⟨-, rest, -, hrest, -, htree⟩ := copyEach_append h
  obtain ⟨hcopy, -⟩ := copyEach_cons_eq_ok hskip hrest
  have hbefore := copyEach_alters how targets skip before t
  have hthis := copy_alters how targets file target (copyEach how targets skip before t).tree
  rw [htree, copyEach_cons_of_made hskip hcopy]
  refine (copy_complete hcopy).of_alters (copyEach_alters how targets skip after _) fun p hp => ?_
  exact hthis.apart_iff.2 (hbefore.apart_iff.2 (hapart p (List.mem_filter.1 hp).1))

/-- What copies leave that break off at the copy `c`, when those at the targets `first` have been
made and those of `after` were still to come. If the document cannot be read or a line of it cannot
be changed, this copy is not begun. If the copy cannot be written, at most its file and directories
on the way to it are made. -/
inductive BreaksOff (how : Copying) (t : FileTree) (first : List Path) (c : Copy)
    (after : List (Path × Path)) : FileTree → BuildError → Prop
  | unprepared {e : BuildError} : copyLines? how c = none →
      (∀ q ∈ c.target :: after.map Prod.snd, Spares (· ∈ first) t c.tree q) →
      BreaksOff how t first c after c.tree e
  | unwritten {out : List Text} {u : FileTree} {e : BuildError} : copyLines? how c = some out →
      Document.write c.tree c.target how.encoding out = (u, .error e) →
      Alters (· = c.target) c.tree u →
      (∀ q ∈ after.map Prod.snd, Spares (· ∈ first ++ [c.target]) t u q) →
      BreaksOff how t first c after u e

theorem copy_breaksOff {after : List (Path × Path)} {e : BuildError}
    (hto : Alters (· ∈ first) t u)
    (hapart : ∀ p ∈ first, ∀ q ∈ target :: after.map Prod.snd, t.Apart p q)
    (hafter : ∀ q ∈ after.map Prod.snd, t.Apart target q)
    (h : (copy how targets file target u).result = .error e) :
    BreaksOff how t first ⟨u, targets, file, target⟩ after (copy how targets file target u).tree e := by
  cases hout : copyLines? how ⟨u, targets, file, target⟩ with
  | none =>
      rw [(copy_of_none hout).1]
      exact .unprepared hout fun q hq => hto.spares fun p hp => hapart p hp q hq
  | some out =>
      obtain ⟨htree, hresult⟩ := copy_of_some hout
      have hthis := copy_alters how targets file target u
      refine .unwritten hout (Prod.ext htree.symm (hresult.symm.trans h)) hthis fun q hq => ?_
      have hboth : Alters (· ∈ first ++ [target]) t (copy how targets file target u).tree :=
        (hto.mono fun p hp => List.mem_append_left _ hp).trans
          (hthis.mono fun p hp => List.mem_append_right _ (List.mem_singleton.2 hp))
      refine hboth.spares fun p hp => ?_
      rcases List.mem_append.1 hp with hfirst | hlast
      · exact hapart p hfirst q (List.mem_cons_of_mem _ hq)
      · rw [List.mem_singleton.1 hlast]
        exact hafter q hq

/-- **Copies break off at one of them.** All others in front of it, but for those to be skipped,
have been made, and each of these is complete, with its lines as they were changed when it was its
turn. A document that could not be read or changed leaves just that; a copy that could not be
written leaves no other trace than its file and directories on the way to it. No file of a later
copy is touched. -/
theorem copyAll_breaksOff {e : BuildError}
    (hapart : (targets.entries.map Prod.snd).Pairwise t.Apart)
    (hfails : (copyAll how targets skip t).result = .error e) :
    ∃ before file target after first, targets.entries = before ++ (file, target) :: after ∧
      target ∉ skip ∧ (copyEach how targets skip before t).result = .ok first ∧
      BreaksOff how t first ⟨(copyEach how targets skip before t).tree, targets, file, target⟩ after
        (copyAll how targets skip t).tree e ∧
      ∀ before' file' target' after', before = before' ++ (file', target') :: after' →
        target' ∉ skip →
        Complete how ⟨(copyEach how targets skip before' t).tree, targets, file', target'⟩
          (copyAll how targets skip t).tree := by
  obtain ⟨before, file, target, after, first, hentries, hskip, hfirst, hcopy, htree⟩ :=
    copyEach_error hfails
  have hto := copyEach_alters how targets skip before t
  rw [hentries, List.map_append, List.map_cons, List.pairwise_append, List.pairwise_cons] at hapart
  obtain ⟨hbefore, ⟨hafter, -⟩, hacross⟩ := hapart
  have hsub : ∀ p ∈ first, p ∈ before.map Prod.snd := by
    intro p hp
    rw [copyEach_result hfirst] at hp
    exact (List.mem_filter.1 hp).1
  rw [← copyEach_result hfirst] at hto
  refine ⟨before, file, target, after, first, hentries, hskip, hfirst, ?_, ?_⟩
  · rw [copyAll, htree]
    exact copy_breaksOff hto (fun p hp q hq => hacross p (hsub p hp) q hq) hafter hcopy
  · rintro before' file' target' after' rfl hskip'
    rw [List.map_append, List.map_cons, List.pairwise_append, List.pairwise_cons] at hbefore
    rw [copyAll, htree]
    have hcomplete := copyEach_complete hskip' (fun q hq => (hbefore.2.1.1 q hq).symm) hfirst
    refine hcomplete.of_alters (copy_alters how targets file target _) ?_
    rintro p rfl
    exact hto.apart_iff.2 (hacross target' (by simp) p List.mem_cons_self).symm

/-- Three documents of which the second one is not in the encoding, and old copies of two. A link
leads to the directory of the copies. -/
def stagedTree : FileTree :=
  (putEntries [(.ofText "/s/a.adoc".toList, .file [97, 10]),
    (.ofText "/s/b.adoc".toList, .file [255]), (.ofText "/s/c.adoc".toList, .file [99, 10]),
    (.ofText "/w/b.adoc".toList, .file [98]), (.ofText "/w/c.adoc".toList, .file [99]),
    (.ofText "/out".toList, .link "w".toList)] (empty [])).1

/-- The targets of these documents: a new directory is on the way to the first two. -/
def stagedTargets : Targets :=
  .ofList [(.ofText "/s/a.adoc".toList, .ofText "/out/x/a.adoc".toList),
    (.ofText "/s/b.adoc".toList, .ofText "/out/x/../b.adoc".toList),
    (.ofText "/s/c.adoc".toList, .ofText "/w/c.adoc".toList)]

def stagedCopies : Outcome (List Path) :=
  copyAll ⟨.empty, "utf-8".toList, Reference.all⟩ stagedTargets [] stagedTree

/-- The second copy breaks off, and its old file stays, which its path leads to only now. -/
theorem stagedCopies_breaksOff :
    let how : Copying := ⟨.empty, "utf-8".toList, Reference.all⟩
    let e : BuildError := .unreadable (.ofText "/s/b.adoc".toList) .text
    ((stagedTargets.entries.map Prod.snd).Pairwise stagedTree.Apart ∧
      stagedCopies.result = .error e) ∧
    (∃ before file target after first, stagedTargets.entries = before ++ (file, target) :: after ∧
      target ∉ [] ∧ (copyEach how stagedTargets [] before stagedTree).result = .ok first ∧
      BreaksOff how stagedTree first
        ⟨(copyEach how stagedTargets [] before stagedTree).tree, stagedTargets, file, target⟩ after
        stagedCopies.tree e ∧
      ∀ before' file' target' after', before = before' ++ (file', target') :: after' →
        target' ∉ [] →
        Complete how
          ⟨(copyEach how stagedTargets [] before' stagedTree).tree, stagedTargets, file', target'⟩
          stagedCopies.tree) ∧
    stagedTargets.entries.map (stagedTree.readFile ·.2) =
      [.error .missing, .error .missing, .ok [99]] ∧
    stagedTargets.entries.map (stagedCopies.tree.readFile ·.2) =
      [.ok [97, 10], .ok [98], .ok [99]] := by
  intro how e
  have hapart : (stagedTargets.entries.map Prod.snd).Pairwise stagedTree.Apart := by decide +kernel
  have hfails : stagedCopies.result = .error e := by decide +kernel
  exact ⟨⟨hapart, hfails⟩, copyAll_breaksOff hapart hfails, by decide +kernel, by decide +kernel⟩

end Relink

end Folio

import Folio.Proofs.Rerun

/-!
# Builds that are tried again

A build that fails can be run again, when its documents have been mended. But it keeps the list of
the copies that it has made (`Build.written`), and passes over their places as if it had written
them in the same attempt. **So the next attempt leaves old copies behind** (`mended_copy_is_stale`).

**Theorem (`Build.run_retry`).** The list is all that a build remembers of its failures. Compared
with a new build with the same arguments,
* it does just the same, if no document has its place among the kept ones, in every file tree, and
  whether it fails or not, and
* if the new build ends with its pages and is quiet, the retry ends with the same pages, writes just
  those copies that are not kept, and leaves at each place of a page what the new build would leave,
  or, where the copy is kept, what it found there.

The second part follows the copies of both builds one by one (`FileTree.Redone`): the retry makes
some of those that the new build makes, and each of them with the same bytes, since all paths about
which it asks are steady.
-/

namespace Folio

open FileTree

/-! ## Fewer copies -/

namespace FileTree

variable {made : List Location} {t t' u u' w w' : FileTree} {p q : Path}

/-- A file that is there in the end is not in the way of another one. -/
theorem Fits.wrote_eq (hp : Fits made t' p) (hq : Fits made t' q) (hne : q.location ≠ p.location)
    (bytes : List UInt8) : u.wrote p bytes q.location = u.entryAt q.location := by
  obtain ⟨content, hfile⟩ := hp.file
  obtain ⟨content', hfile'⟩ := hq.file
  rw [FileTree.wrote, if_neg hne, if_neg]
  intro habove
  rw [directory_above_file hfile habove hne] at hfile'
  exact absurd hfile' (by simp)

/-- One build has led from `u` to `u'`, and another one, which keeps some copies, from `w` to `w'`.
At the place of a kept copy the other one has changed nothing. At another place the trees have
remained alike, or have become so where there is something new. -/
structure Redone (made : List Location) (t' : FileTree) (anchor : Anchor) (kept : List Path)
    (new : Path → Prop) (u u' w w' : FileTree) : Prop where
  same : ∀ q, Fits made t' q → q.anchor = anchor → q ∈ kept →
    w'.entryAt q.location = w.entryAt q.location
  alike : ∀ q, Fits made t' q → q.anchor = anchor → q ∉ kept →
    w.entryAt q.location = u.entryAt q.location ∨ new q →
    w'.entryAt q.location = u'.entryAt q.location

namespace Redone

variable {anchor : Anchor} {kept : List Path} {new new' both : Path → Prop} {bytes : List UInt8}

theorem refl (hnew : ∀ q, ¬ new q) : Redone made t' anchor kept new u u w w :=
  ⟨fun _ _ _ _ => rfl, fun q _ _ _ h => h.resolve_right (hnew q)⟩

theorem trans {u₁ u₂ w₁ w₂ : FileTree} (h : Redone made t' anchor kept new u u₁ w w₁)
    (h' : Redone made t' anchor kept new' u₁ u₂ w₁ w₂) (hnew : ∀ q, both q → new q ∨ new' q) :
    Redone made t' anchor kept both u u₂ w w₂ := by
  refine ⟨fun q hq hanchor hkept => (h'.same q hq hanchor hkept).trans (h.same q hq hanchor hkept),
    fun q hq hanchor hnot hstart => h'.alike q hq hanchor hnot ?_⟩
  rcases hstart with hbefore | hboth
  · exact .inl (h.alike q hq hanchor hnot (.inl hbefore))
  · exact (hnew q hboth).imp (fun hfirst => h.alike q hq hanchor hnot (.inr hfirst)) id

/-- A copy that is kept is made by the first build only. -/
theorem of_kept (hp : Fits made t' p) (hanchor : p.anchor = anchor) (hkept : p ∈ kept)
    (hu : ∀ loc, u'.entryAt loc = u.wrote p bytes loc) :
    Redone made t' anchor kept (· = p) u u' w w := by
  refine ⟨fun _ _ _ _ => rfl, fun q hq hq' hnot hstart => ?_⟩
  have hne : q ≠ p := fun h => hnot (h ▸ hkept)
  rw [hu, hp.wrote_eq hq (Relink.location_ne (hq'.trans hanchor.symm) hne)]
  exact hstart.resolve_right hne

/-- Another copy is made by both, with the same bytes. -/
theorem of_wrote (hp : Fits made t' p) (hanchor : p.anchor = anchor) (hnot : p ∉ kept)
    (hu : ∀ loc, u'.entryAt loc = u.wrote p bytes loc)
    (hw : ∀ loc, w'.entryAt loc = w.wrote p bytes loc) :
    Redone made t' anchor kept (· = p) u u' w w' := by
  have hother : ∀ q, Fits made t' q → q.anchor = anchor → q ≠ p → ∀ s : FileTree,
      s.wrote p bytes q.location = s.entryAt q.location := fun q hq hq' hne s =>
    hp.wrote_eq hq (Relink.location_ne (hq'.trans hanchor.symm) hne) bytes
  refine ⟨fun q hq hq' hkept => ?_, fun q hq hq' _ hstart => ?_⟩
  · rw [hw, hother q hq hq' fun h => hnot (h ▸ hkept)]
  · by_cases hat : q = p
    · rw [hu, hw, hat, FileTree.wrote, FileTree.wrote, if_pos rfl, if_pos rfl]
    · rw [hu, hw, hother q hq hq' hat, hother q hq hq' hat]
      exact hstart.resolve_right hat

end Redone

end FileTree

namespace Relink

variable {how : Copying} {targets : Targets} {skip skip' kept : List Path} {t t' u w : FileTree}
  {made : List Location} {docs : List (Path × Path)} {new : List Path}

/-- Only the places of the documents matter among those that are passed over. -/
theorem copyEach_congr_skip (h : ∀ e ∈ docs, (e.2 ∈ skip' ↔ e.2 ∈ skip)) :
    copyEach how targets skip' docs t = copyEach how targets skip docs t := by
  induction docs generalizing t with
  | nil => rfl
  | cons e docs ih =>
      obtain ⟨file, target⟩ := e
      rw [List.forall_mem_cons] at h
      by_cases hmem : target ∈ skip
      · rw [copyEach_cons_of_mem hmem, copyEach_cons_of_mem (h.1.2 hmem)]
        exact ih h.2
      · have hmem' : target ∉ skip' := fun h' => hmem (h.1.1 h')
        simp only [copyEach, hmem, hmem', if_false, ih h.2]

/-- **Copies are made again, but for those that are kept.** -/
theorem copyEach_kept (ht' : t'.LinkFree)
    (hcomplete : ∀ loc, t.entryAt loc = none → t'.entryAt loc ≠ none → loc ∈ made)
    (hu : Stage made t t' u) (hw : Stage made t t' w) {anchor : Anchor}
    (hok : (copyEach how targets skip docs u).result = .ok new)
    (hskip : ∀ e ∈ docs, (e.2 ∈ skip' ↔ e.2 ∈ kept ∨ e.2 ∈ skip))
    (hfiles : ∀ e ∈ docs, Steady made t t' e.1)
    (hplaces : ∀ e ∈ docs, Fits made t' e.2 ∧ e.2.anchor = anchor)
    (hlooked : ∀ e ∈ (copyEach how targets skip docs u).events, ∀ p, e.looked? = some p →
      Steady made t t' p) :
    Stage made t t' (copyEach how targets skip docs u).tree ∧
      ∃ w' es new', copyEach how targets skip' docs w = ⟨w', es, .ok new'⟩ ∧ Stage made t t' w' ∧
        Redone made t' anchor kept (· ∈ new) u (copyEach how targets skip docs u).tree w w' := by
  induction docs generalizing u w new with
  | nil =>
      obtain rfl := Except.ok.inj hok
      exact ⟨hu, w, [], [], rfl, hw, .refl fun _ => List.not_mem_nil⟩
  | cons e docs ih =>
      obtain ⟨file, target⟩ := e
      rw [List.forall_mem_cons] at hskip hfiles hplaces
      by_cases hmem : target ∈ skip
      · have hmem' : target ∈ skip' := hskip.1.2 (.inr hmem)
        rw [copyEach_cons_of_mem hmem] at hok hlooked ⊢
        rw [copyEach_cons_of_mem hmem']
        exact ih hu hw hok hskip.2 hfiles.2 hplaces.2 hlooked
      · obtain ⟨hcopy, rest, hrest, rfl⟩ := copyEach_cons_eq_ok hmem hok
        rw [copyEach_cons_of_made hmem hcopy] at hlooked ⊢
        simp only [List.mem_append] at hlooked
        obtain ⟨bytes, hentries, w₁, es, hagain, -, hentries'⟩ := copy_again ht' hu hw
          hplaces.1.1 hcopy hfiles.1 (fun e he => hlooked e (.inl he)) (fun _ _ _ _ _ => rfl)
        have hu₁ := hu.wrote hcomplete hplaces.1.1
          (copy_retains how targets file target u).toKeeps hentries
        by_cases hkept : target ∈ kept
        · -- Only the new build makes this copy.
          obtain ⟨hu₂, w₂, es', new', hrest', hw₂, hredone⟩ := ih hu₁ hw hrest hskip.2 hfiles.2
            hplaces.2 fun e he => hlooked e (.inr he)
          rw [copyEach_cons_of_mem (hskip.1.2 (.inl hkept))]
          exact ⟨hu₂, w₂, es', new', hrest', hw₂,
            (Redone.of_kept hplaces.1.1 hplaces.1.2 hkept hentries).trans hredone
              fun _ => List.mem_cons.1⟩
        · have hmem' : target ∉ skip' := fun h => (hskip.1.1 h).elim hkept hmem
          have hw₁ := hw.wrote hcomplete hplaces.1.1 (copy_keeps hagain) hentries'
          obtain ⟨hu₂, w₂, es', new', hrest', hw₂, hredone⟩ := ih hu₁ hw₁ hrest hskip.2 hfiles.2
            hplaces.2 fun e he => hlooked e (.inr he)
          refine ⟨hu₂, w₂, es ++ es', target :: new', ?_, hw₂,
            (Redone.of_wrote hplaces.1.1 hplaces.1.2 hkept hentries hentries').trans hredone
              fun _ => List.mem_cons.1⟩
          rw [copyEach_cons_of_ok hmem' hagain, hrest']
          rfl

end Relink

/-! ## Pages -/

/-- Some copies, and behind them those among others that are not the same. -/
def behind (kept written : List Path) : List Path := kept ++ written.filter (· ∉ kept)

theorem mem_behind {kept written : List Path} {p : Path} :
    p ∈ behind kept written ↔ p ∈ kept ∨ p ∈ written := by
  simp only [behind, List.mem_append, List.mem_filter, decide_eq_true_eq]
  tauto

/-- What is not yet written is added to both lists. -/
theorem behind_append (kept written targets : List Path) :
    behind kept written ++ targets.filter (· ∉ behind kept written) =
      behind kept (written ++ targets.filter (· ∉ written)) := by
  have hfilter : targets.filter (· ∉ behind kept written) =
      (targets.filter (· ∉ written)).filter (· ∉ kept) := by
    rw [List.filter_filter]
    refine List.filter_congr fun p _ => ?_
    simp only [mem_behind, not_or, Bool.decide_and]
  rw [hfilter, behind, behind, List.filter_append, List.append_assoc]

namespace Build

variable {b : Build} {t t' u w : FileTree} {made : List Location} {written kept : List Path}
  {file target : Path} {docs : List (Path × Path)}

/-- The same progress, with some copies that were there before. -/
def Progress.keeping (kept : List Path) (p : Progress) : Progress :=
  { p with written := kept ++ p.written }

/-- Where nothing is kept, a page is made in the same way. -/
theorem makePage_keeping (h : ∀ file' target', b.Maps ⟨t, written, file, target⟩ file' target' →
      target' ∉ kept) :
    b.makePage t (kept ++ written) file target =
      (b.makePage t written file target).keeping kept := by
  have hcopies : b.copies ⟨t, kept ++ written, file, target⟩ =
      b.copies ⟨t, written, file, target⟩ := by
    refine Relink.copyEach_congr_skip fun e he => ?_
    have hnot : e.2 ∉ kept := h e.1 e.2 (maps_iff_mem.2 he)
    rw [List.mem_append, or_iff_right hnot]
  have hfound : b.found ⟨t, kept ++ written, file, target⟩ =
      b.found ⟨t, written, file, target⟩ := rfl
  have hpage := makePage_eq b ⟨t, written, file, target⟩
  have hpage' := makePage_eq b ⟨t, kept ++ written, file, target⟩
  rw [hfound, hcopies] at hpage'
  rw [hpage, hpage']
  split
  · rfl
  · split
    · rfl
    · simp only [Progress.keeping, List.append_assoc]

/-- **Pages are made in the same way**, if no document has its place among the kept copies. -/
theorem makePages_keeping (h : ∀ v ∈ b.visitAll docs t written, ∀ file target,
      b.Maps v file target → target ∉ kept) :
    b.makePages docs t (kept ++ written) = (b.makePages docs t written).keeping kept := by
  induction docs generalizing t written with
  | nil => rfl
  | cons e docs ih =>
      obtain ⟨file, target⟩ := e
      rw [visitAll, List.forall_mem_cons] at h
      rw [makePages, makePages, makePage_keeping h.1]
      cases hpage : (b.makePage t written file target).result with
      | error e => simp only [Progress.keeping, hpage]
      | ok page =>
          rw [hpage] at h
          simp only [Progress.keeping, hpage, ih h.2]

/-- **Pages are made again, but for the copies that are kept.** -/
theorem makePages_kept (kept : List Path) (ht' : t'.LinkFree)
    (hcomplete : ∀ loc, t.entryAt loc = none → t'.entryAt loc ≠ none → loc ∈ made)
    (hu : Stage made t t' u) (hw : Stage made t t' w) {anchor : Anchor} {pages : List Page}
    (hok : (b.makePages docs u written).result = .ok pages)
    (hasked : ∀ v ∈ b.visitAll docs u written, ∀ p ∈ b.askedAt v, Steady made t t' p)
    (hplaces : ∀ v ∈ b.visitAll docs u written, ∀ file target, b.Maps v file target →
      Fits made t' target ∧ target.anchor = anchor) :
    ∃ w' es, b.makePages docs w (behind kept written) =
        ⟨w', es, behind kept (b.makePages docs u written).written, .ok pages⟩ ∧
      Redone made t' anchor kept (fun q => q ∈ (b.makePages docs u written).written ∧ q ∉ written)
        u (b.makePages docs u written).tree w w' := by
  induction docs generalizing u w written pages with
  | nil =>
      obtain rfl := Except.ok.inj hok
      exact ⟨w, [], rfl, .refl fun _ h => h.2 h.1⟩
  | cons e docs ih =>
      obtain ⟨file, target⟩ := e
      obtain ⟨page, new, rest, hfound, hcopies, hrest, rfl⟩ :=
        makePages_cons_eq_ok (v := ⟨u, written, file, target⟩) hok
      obtain ⟨hmade, hvisits⟩ := makePages_cons_of_ok docs (makePage_of_ok hfound hcopies)
      rw [hmade]
      rw [hvisits, List.forall_mem_cons] at hasked hplaces
      have hentry : ∀ e ∈ (b.found ⟨u, written, file, target⟩).targets.entries,
          Steady made t t' e.1 ∧ Fits made t' e.2 ∧ e.2.anchor = anchor := fun e he =>
        ⟨hasked.1 e.1 (mem_askedAt_of_mem_keys (List.mem_map_of_mem he)),
          hplaces.1 e.1 e.2 (maps_iff_mem.2 he)⟩
      obtain ⟨hu₁, w₁, es, new', hcopies', hw₁, hredone⟩ := Relink.copyEach_kept ht' hcomplete hu
        hw hcopies (fun e _ => (mem_behind : e.2 ∈ behind kept written ↔ _))
        (fun e he => (hentry e he).1) (fun e he => (hentry e he).2)
        fun e he p hp => hasked.1 p (mem_askedAt_of_looked? he hp)
      -- The search finds the same, so the retry has the same documents to copy.
      have hfound' : b.found ⟨w, behind kept written, file, target⟩ =
          b.found ⟨u, written, file, target⟩ := collect_again hu hw hfound hasked.1
      have hcopied : b.copies ⟨w, behind kept written, file, target⟩ = ⟨w₁, es, .ok new'⟩ := by
        rw [copies, hfound']
        exact hcopies'
      have hnew : behind kept written ++ new' = behind kept (written ++ new) := by
        rw [Relink.copyEach_result hcopies,
          Relink.copyEach_result (by rw [hcopies'] : _ = Except.ok new'), behind_append]
      have hagain := makePage_of_ok (v := ⟨w, behind kept written, file, target⟩)
        (hfound' ▸ hfound) (by rw [hcopied])
      rw [hcopied, hnew] at hagain
      rw [(makePages_cons_of_ok docs hagain).1]
      obtain ⟨w₂, es', hrest', hredone'⟩ := ih hu₁ hw₁ hrest hasked.2 hplaces.2
      refine ⟨w₂, _, by rw [hrest']; rfl, hredone.trans hredone' fun q hq => ?_⟩
      obtain ⟨hmem, hunwritten⟩ := hq
      by_cases hfirst : q ∈ new
      · exact .inl hfirst
      · exact .inr ⟨hmem, by simp [hunwritten, hfirst]⟩

/-! ## Whole runs -/

/-- The build has been run some times, and has failed each time. -/
inductive Tried (b : Build) : Build → Prop
  | opened : Tried b b
  | failed {b' : Build} {t : FileTree} {e : BuildError} :
      Tried b b' → (b'.run t).result = .error e → Tried b (b'.after (b'.run t))

/-- **All that is left of failed runs** is the list of the copies. -/
theorem Tried.eq {b' : Build} (h : b.Tried b') : b' = { b with written := b'.written } := by
  induction h with
  | opened => rfl
  | failed _ hfailed ih =>
      rw [after, hfailed, ih]

theorem makePages_with_written (b : Build) (kept : List Path) (docs : List (Path × Path))
    (t : FileTree) (written : List Path) :
    ({ b with written := kept } : Build).makePages docs t written =
      b.makePages docs t written := by
  induction docs generalizing t written with
  | nil => rfl
  | cons e docs ih =>
      have hpage : ({ b with written := kept } : Build).makePage = b.makePage := rfl
      simp only [makePages, hpage, ih]

/-- The run of a build that keeps some copies. -/
theorem run_with_written (hpages : b.pages = none) (kept : List Path) (t : FileTree) :
    ({ b with written := kept } : Build).run t =
      match b.topLevel t with
      | (es, .error e) => ⟨t, es, kept, .error e⟩
      | (es, .ok docs) =>
          { b.makePages docs t kept with events := es ++ (b.makePages docs t kept).events } := by
  obtain ⟨source, workingDir, attributes, encoding, written, pages⟩ := b
  obtain rfl : pages = none := hpages
  simp only [← makePages_with_written _ kept]
  cases htop : (⟨source, workingDir, attributes, encoding, written, none⟩ : Build).topLevel t with
  | mk es r =>
      have htop' : (⟨source, workingDir, attributes, encoding, kept, none⟩ : Build).topLevel t =
          (es, r) := htop
      cases r <;> simp only [run, make, htop']

theorem opened_eq {t₀ : FileTree} {source workingDir : Path} {attributes : Attributes}
    {encoding : Text} {first fresh : Build} (hcwd : t.cwd = t₀.cwd)
    (hopen : open? t₀ source workingDir attributes encoding = .ok first)
    (hfresh : open? t source workingDir attributes encoding = .ok fresh) : first = fresh := by
  rw [open?_eq_ok hopen, open?_eq_ok hfresh, cwdPath, cwdPath, hcwd]

/-- **A build that is tried again** does what a new build with the same arguments does, if no
document has its place among the copies kept from the failed runs. If the new build ends with its
pages and is quiet, the retry ends with the same ones; it leaves the kept copies as it found them,
and at the other places what the new build leaves. So no page is stale just if the kept copies of
pages are as a new build would make them. -/
theorem run_retry {t₀ : FileTree} {source workingDir : Path} {attributes : Attributes}
    {encoding : Text} {first fresh : Build}
    (hopen : open? t₀ source workingDir attributes encoding = .ok first) (htried : first.Tried b)
    (hcwd : t.cwd = t₀.cwd) (hfresh : open? t source workingDir attributes encoding = .ok fresh) :
    ((∀ v ∈ fresh.visits t, ∀ file target, fresh.Maps v file target → target ∉ b.written) →
      b.run t = (fresh.run t).keeping b.written) ∧
    (t.LinkFree → (fresh.run t).result.isOk → fresh.Quiet t →
      (∀ p ∈ fresh.asked t, (fresh.run t).tree.Answers p) →
      (b.run t).result = (fresh.run t).result ∧
        (b.run t).written = behind b.written (fresh.run t).written ∧
        ∀ target ∈ (fresh.run t).written, (b.run t).tree.entryAt target.location =
          if target ∈ b.written then t.entryAt target.location
          else (fresh.run t).tree.entryAt target.location) := by
  obtain rfl := opened_eq hcwd hopen hfresh
  have hnone : first.pages = none := by rw [open?_eq_ok hopen]
  have hnew : first.written = [] := by rw [open?_eq_ok hopen]
  have hrun := run_with_written hnone b.written t
  rw [← htried.eq] at hrun
  refine ⟨fun hspared => ?_, fun ht hdone hquiet hanswers => ?_⟩
  · have hrun₀ := run_with_written hnone first.written t
    rw [hrun, hrun₀]
    cases htop : first.topLevel t with
    | mk es r =>
        cases r with
        | error e => simp only [Progress.keeping, hnew, List.append_nil]
        | ok docs =>
            rw [visits_of_topLevel hnone htop] at hspared
            have hpages := makePages_keeping hspared
            rw [hnew, List.append_nil] at hpages
            simp only [hnew, hpages, Progress.keeping]
  · have hb : first.Live := .opened hopen
    obtain ⟨es, docs, htop⟩ := exists_topLevel hnone hdone
    have hsteady := asked_steady hb ht hdone hquiet hanswers
    have hstart := start_stage hdone
    have hfree := run_linkFree hb ht hdone
    have hcomplete : ∀ loc, t.entryAt loc = none → (first.run t).tree.entryAt loc ≠ none →
        loc ∈ first.made t := fun loc => mem_made_of_new
    have hvisits := visits_of_topLevel hnone htop
    obtain ⟨htree, hwritten, hresult⟩ := run_of_topLevel hnone htop
    obtain ⟨pages, hok⟩ := Search.exists_ok_of_isOk (hresult ▸ hdone)
    obtain ⟨w, es', hagain, hredone⟩ := makePages_kept b.written hfree hcomplete hstart
      hstart hok
      (fun v hv p hp => hsteady p (mem_asked (hvisits ▸ hv) hp))
      fun v hv file target hmaps =>
        ⟨fits_of_maps hb ht hdone hnew (hvisits ▸ hv) hmaps, (hmaps.placed hb (hvisits ▸ hv)).2⟩
    have hkept : behind b.written first.written = b.written := by
      rw [hnew]
      exact List.append_nil _
    rw [htop] at hrun
    rw [hkept] at hagain
    simp only [hagain] at hrun
    rw [hrun, hresult, hwritten, htree, hok]
    refine ⟨rfl, rfl, fun target hmem => ?_⟩
    obtain hold | ⟨v, hv, file, hmaps⟩ := (run_runs hdone).mem_written_iff.1 (hwritten ▸ hmem)
    · exact absurd hold (by simp [hnew])
    · have hfits := fits_of_maps hb ht hdone hnew hv hmaps
      have hanchor := (hmaps.placed hb hv).2
      split
      · next hkept => exact hredone.same target hfits hanchor hkept
      · next hkept => exact hredone.alike target hfits hanchor hkept (.inl rfl)

/-- Two documents at the source, the second of which is no text. -/
def spoiltTree : FileTree :=
  .ofFiles [("/docs/a.adoc", "one\n"), ("/docs/b.adoc", "\xff\n")]

/-- What a run has left when it failed there, with the second document mended and the first one
changed. -/
def mendedTree : FileTree :=
  .ofFiles [("/docs/a.adoc", "two\n"), ("/docs/b.adoc", "= B\n"), ("/work/a.adoc", "one\n")]

/-- The same, with the second document mended and the first one removed. -/
def clearedTree : FileTree :=
  .ofFiles [("/docs/b.adoc", "= B\n"), ("/work/a.adoc", "one\n")]

/-- A build of the documents below `/work`. -/
def spoilt : Build :=
  ⟨Path.absolute spoiltTree.cwdPath (.ofText "/docs".toList),
    Path.absolute spoiltTree.cwdPath (.ofText "/work".toList), .empty, "utf-8".toList, [], none⟩

/-- The document of this name, and the place for its copy. -/
def spoiltDoc (name : String) : Path × Path :=
  (.ofText ("/docs/" ++ name).toList, .ofText ("/work/" ++ name).toList)

theorem spoilt_opened (hcwd : t.cwd = spoiltTree.cwd)
    (hopen : (open? t (.ofText "/docs".toList) (.ofText "/work".toList) .empty
      "utf-8".toList).isOk) :
    open? t (.ofText "/docs".toList) (.ofText "/work".toList) .empty "utf-8".toList =
      .ok spoilt := by
  rw [open?_of_isOk hopen, cwdPath, hcwd]
  rfl

theorem spoilt_live : spoilt.Live := .of_isOk (by decide +kernel)

/-- The documents at the source of each of the trees. -/
theorem spoilt_topLevel {docs : List (Path × Path)}
    (h : (t, docs) ∈ [(spoiltTree, [spoiltDoc "a.adoc", spoiltDoc "b.adoc"]),
      (mendedTree, [spoiltDoc "a.adoc", spoiltDoc "b.adoc"]),
      (clearedTree, [spoiltDoc "b.adoc"])]) :
    spoilt.topLevel t = ([.listed spoilt.source], .ok docs) := by
  have hall : ∀ e ∈ [(spoiltTree, [spoiltDoc "a.adoc", spoiltDoc "b.adoc"]),
      (mendedTree, [spoiltDoc "a.adoc", spoiltDoc "b.adoc"]),
      (clearedTree, [spoiltDoc "b.adoc"])],
      (∀ x ∈ e.1.entries.entries, x.2.isLink = false) ∧
        e.1.isDirectory? spoilt.source = .ok true ∧
        ((e.1.entries.keys.filterMap (nameIn? spoilt.source.location)).Pairwise fun m n =>
          Text.le m.text n.text = true) ∧
        pagesAmong e.1 spoilt.source spoilt.workingDir
          (e.1.entries.keys.filterMap (nameIn? spoilt.source.location)) = .ok e.2 := by
    decide +kernel
  obtain ⟨hlinks, hdir, hsorted, hdocs⟩ := hall _ h
  exact topLevel_of_pairwise spoilt_live (linkFree_of_entries hlinks) hdir hsorted hdocs

theorem spoiltTree_topLevel : spoilt.topLevel spoiltTree =
    ([.listed spoilt.source], .ok [spoiltDoc "a.adoc", spoiltDoc "b.adoc"]) :=
  spoilt_topLevel (by simp)

theorem mendedTree_topLevel : spoilt.topLevel mendedTree =
    ([.listed spoilt.source], .ok [spoiltDoc "a.adoc", spoiltDoc "b.adoc"]) :=
  spoilt_topLevel (by simp)

theorem clearedTree_topLevel : spoilt.topLevel clearedTree =
    ([.listed spoilt.source], .ok [spoiltDoc "b.adoc"]) :=
  spoilt_topLevel (by simp)

/-- The first run fails, and keeps the copy of the first document. -/
theorem spoilt_fails :
    (spoilt.run spoiltTree).result = .error (.unreadable (spoiltDoc "b.adoc").1 .text) ∧
      (spoilt.run spoiltTree).written = [(spoiltDoc "a.adoc").2] := by
  rw [run_eq_of_topLevel (b := spoilt) rfl spoiltTree_topLevel]
  exact ⟨error_of_map_eq_error (f := fun _ => ()) (by decide +kernel), by decide +kernel⟩

/-- The build after its first run. -/
theorem spoilt_after :
    spoilt.after (spoilt.run spoiltTree) = { spoilt with written := [(spoiltDoc "a.adoc").2] } := by
  rw [after, spoilt_fails.1, spoilt_fails.2]

/-- The next run passes over this copy. -/
theorem spoilt_run_again {docs : List (Path × Path)}
    (htop : spoilt.topLevel t = ([.listed spoilt.source], .ok docs)) :
    (spoilt.after (spoilt.run spoiltTree)).run t =
      { spoilt.makePages docs t [(spoiltDoc "a.adoc").2] with
        events := [.listed spoilt.source] ++
          (spoilt.makePages docs t [(spoiltDoc "a.adoc").2]).events } := by
  rw [spoilt_after, run_with_written rfl, htop]

theorem spoilt_retry :
    let source : Path := .ofText "/docs".toList
    let workingDir : Path := .ofText "/work".toList
    let b := spoilt.after (spoilt.run spoiltTree)
    (open? spoiltTree source workingDir .empty "utf-8".toList = .ok spoilt ∧ spoilt.Tried b ∧
      clearedTree.cwd = spoiltTree.cwd ∧
      open? clearedTree source workingDir .empty "utf-8".toList = .ok spoilt ∧
      mendedTree.cwd = spoiltTree.cwd ∧
      open? mendedTree source workingDir .empty "utf-8".toList = .ok spoilt) ∧
    ((∀ v ∈ spoilt.visits clearedTree, ∀ file target, spoilt.Maps v file target →
        target ∉ b.written) ∧
      b.run clearedTree = (spoilt.run clearedTree).keeping b.written) ∧
    ((mendedTree.LinkFree ∧ (spoilt.run mendedTree).result.isOk ∧ spoilt.Quiet mendedTree ∧
        ∀ p ∈ spoilt.asked mendedTree, (spoilt.run mendedTree).tree.Answers p) ∧
      (b.run mendedTree).result = (spoilt.run mendedTree).result ∧
        (b.run mendedTree).written = behind b.written (spoilt.run mendedTree).written ∧
        ∀ target ∈ (spoilt.run mendedTree).written, (b.run mendedTree).tree.entryAt target.location =
          if target ∈ b.written then mendedTree.entryAt target.location
          else (spoilt.run mendedTree).tree.entryAt target.location) := by
  intro source workingDir b
  have hopen : open? spoiltTree source workingDir .empty "utf-8".toList = .ok spoilt :=
    spoilt_opened rfl (by decide +kernel)
  have hcwd : clearedTree.cwd = spoiltTree.cwd ∧ mendedTree.cwd = spoiltTree.cwd := by
    decide +kernel
  have hcleared : open? clearedTree source workingDir .empty "utf-8".toList = .ok spoilt :=
    spoilt_opened hcwd.1 (by decide +kernel)
  have hmended : open? mendedTree source workingDir .empty "utf-8".toList = .ok spoilt :=
    spoilt_opened hcwd.2 (by decide +kernel)
  have htried : spoilt.Tried b := .failed .opened spoilt_fails.1
  have hb : b = { spoilt with written := [(spoiltDoc "a.adoc").2] } := spoilt_after
  have hspared : ∀ v ∈ spoilt.visits clearedTree, ∀ e ∈ (spoilt.found v).targets.entries,
      e.2 ∉ b.written := by
    rw [visits_of_topLevel rfl clearedTree_topLevel, hb]
    decide +kernel
  have hspared' : ∀ v ∈ spoilt.visits clearedTree, ∀ file target, spoilt.Maps v file target →
      target ∉ b.written :=
    fun v hv file target hmaps => hspared v hv (file, target) (maps_iff_mem.1 hmaps)
  have hfree : mendedTree.LinkFree := linkFree_of_entries (by decide +kernel)
  have hquiet : (spoilt.run mendedTree).result.isOk ∧ spoilt.Quiet mendedTree ∧
      ∀ p ∈ spoilt.asked mendedTree, (spoilt.run mendedTree).tree.Answers p := by
    rw [Quiet, Build.made, asked, run_eq_of_topLevel (b := spoilt) rfl mendedTree_topLevel,
      visits_of_topLevel rfl mendedTree_topLevel]
    decide +kernel
  exact ⟨⟨hopen, htried, hcwd.1, hcleared, hcwd.2, hmended⟩,
    ⟨hspared', (run_retry hopen htried hcwd.1 hcleared).1 hspared'⟩,
    ⟨hfree, hquiet⟩,
    (run_retry hopen htried hcwd.2 hmended).2 hfree hquiet.1 hquiet.2.1 hquiet.2.2⟩

/-- **A copy is stale** after a retry that ends with its pages: the failed run has made it, and its
document has been changed since. Nothing but the documents is changed between the two runs. -/
theorem mended_copy_is_stale :
    let source : Path := .ofText "/docs".toList
    let workingDir : Path := .ofText "/work".toList
    let a := spoiltDoc "a.adoc"
    let b := spoiltDoc "b.adoc"
    let failed := spoilt.run spoiltTree
    let retry := (spoilt.after failed).run mendedTree
    let fresh := spoilt.run mendedTree
    (open? spoiltTree source workingDir .empty "utf-8".toList = .ok spoilt ∧
      failed.result = .error (.unreadable b.1 .text)) ∧
    (mendedTree.entries.keys = failed.tree.entries.keys ∧ ∀ loc ∈ mendedTree.entries.keys,
      loc = a.1.location ∨ loc = b.1.location ∨
        mendedTree.entryAt loc = failed.tree.entryAt loc) ∧
    open? mendedTree source workingDir .empty "utf-8".toList = .ok spoilt ∧
    retry.result.toOption.map (·.map Page.path) = some [a.2, b.2] ∧
    fresh.result.toOption.map (·.map Page.path) = some [a.2, b.2] ∧
    retry.tree.entryAt a.2.location = some (.file ("one\n".toList.map fun c => .ofNat c.toNat)) ∧
    fresh.tree.entryAt a.2.location = some (.file ("two\n".toList.map fun c => .ofNat c.toNat)) := by
  intro source workingDir a b failed retry fresh
  have hleft : mendedTree.entries.keys = failed.tree.entries.keys ∧
      ∀ loc ∈ mendedTree.entries.keys, loc = a.1.location ∨ loc = b.1.location ∨
        mendedTree.entryAt loc = failed.tree.entryAt loc := by
    simp only [failed, run_eq_of_topLevel (b := spoilt) rfl spoiltTree_topLevel]
    decide +kernel
  refine ⟨⟨spoilt_opened rfl (by decide +kernel), spoilt_fails.1⟩, hleft,
    spoilt_opened (by decide +kernel) (by decide +kernel), ?_⟩
  have hfresh := run_eq_of_topLevel (b := spoilt) rfl mendedTree_topLevel
  rw [show retry = _ from spoilt_run_again mendedTree_topLevel, show fresh = _ from hfresh]
  decide +kernel

end Build

end Folio

import Folio.Proofs.Rerun

/-!
# Documents that are shared

A document to which several documents at the source lead is copied in the first visit that comes to
it, and later visits pass over it. Every visit has targets of its own, and a reference is taken out
just if the targets of the visit have its document. **So the copy depends on the visit that makes
it** (`crossed_copy_differs`).

**Theorem (`Build.run_unordered`).** The visits that share a document make the same copy of it if
they agree on the references in it: whatever exists and is referred to has a target in all of them
or in none. If this is so for all shared documents of a quiet run, then passing over documents saves
work and nothing else, and the order of the documents at the source does not matter. In any order,
and with any part of the copies made anew, the same files are left.

Each copy is the same at every stage of the run, and it brings the file tree nearer to the one that
the run leaves (`FileTree.Nears`).
-/

namespace Folio

open FileTree

/-! ## Coming nearer -/

namespace FileTree

variable {t' u w x : FileTree} {p : Path}

/-- Where the one tree is like the last one, the other is so as well. -/
def Nears (t' u w : FileTree) : Prop :=
  ∀ loc, u.entryAt loc = t'.entryAt loc → w.entryAt loc = t'.entryAt loc

theorem Nears.trans (h : Nears t' u w) (h' : Nears t' w x) : Nears t' u x :=
  fun loc hloc => h' loc (h loc hloc)

/-- **Writing what is there in the end** brings a tree nearer to it. -/
theorem nears_of_wrote {bytes : List UInt8} (hfile : t'.entryAt p.location = some (.file bytes))
    (hw : ∀ loc, w.entryAt loc = u.wrote p bytes loc) :
    Nears t' u w ∧ w.entryAt p.location = t'.entryAt p.location := by
  refine ⟨fun loc hloc => ?_, by rw [hw, FileTree.wrote, if_pos rfl, hfile]⟩
  rw [hw, FileTree.wrote]
  by_cases hat : loc = p.location
  · rw [if_pos hat, hat, hfile]
  · rw [if_neg hat]
    split
    · next habove => rw [directory_above_file hfile habove hat]
    · exact hloc

end FileTree

/-! ## Copies at any stage -/

namespace Relink

variable {how : Copying} {targets targets' : Targets} {skip : List Path} {file target : Path}
  {t t' u : FileTree} {made : List Location} {docs docs' : List (Path × Path)} {new : List Path}

theorem events_subset_append
    (h : (copyEach how targets skip (docs ++ docs') t).result = .ok new) :
    (copyEach how targets skip docs' (copyEach how targets skip docs t).tree).events ⊆
      (copyEach how targets skip (docs ++ docs') t).events := by
  induction docs generalizing t new with
  | nil => exact List.Subset.refl _
  | cons e docs ih =>
      obtain ⟨file, target⟩ := e
      rw [List.cons_append] at h ⊢
      by_cases hskip : target ∈ skip
      · rw [copyEach_cons_of_mem hskip] at h ⊢
        rw [copyEach_cons_of_mem hskip]
        exact ih h
      · obtain ⟨hcopy, rest, hrest, -⟩ := copyEach_cons_eq_ok hskip h
        rw [copyEach_cons_of_made hskip hcopy, copyEach_cons_of_made hskip hcopy]
        exact List.Subset.trans (ih hrest) (List.subset_append_right _ _)

/-- A copy can be made at any stage, and then holds what is there in the end. -/
def Repeats (how : Copying) (targets : Targets) (made : List Location) (t t' : FileTree)
    (file target : Path) : Prop :=
  ∀ u, Stage made t t' u → ∃ w es bytes, copy how targets file target u = ⟨w, es, .ok ()⟩ ∧
    t'.entryAt target.location = some (.file bytes) ∧ ∀ loc, w.entryAt loc = u.wrote target bytes loc

/-- **Copies are made at any stage**, if what is passed over is there already. -/
theorem copyEach_repeats
    (hcomplete : ∀ loc, t.entryAt loc = none → t'.entryAt loc ≠ none → loc ∈ made)
    (hu : Stage made t t' u)
    (hdocs : ∀ e ∈ docs, Fits made t' e.2 ∧ Repeats how targets made t t' e.1 e.2)
    (hskip : ∀ p ∈ skip, u.entryAt p.location = t'.entryAt p.location) :
    ∃ w es new, copyEach how targets skip docs u = ⟨w, es, .ok new⟩ ∧ Stage made t t' w ∧
      Nears t' u w ∧ ∀ e ∈ docs, w.entryAt e.2.location = t'.entryAt e.2.location := by
  induction docs generalizing u with
  | nil => exact ⟨u, [], [], rfl, hu, fun _ h => h, by simp⟩
  | cons e docs ih =>
      obtain ⟨file, target⟩ := e
      rw [List.forall_mem_cons] at hdocs
      simp only [List.forall_mem_cons]
      by_cases hmem : target ∈ skip
      · rw [copyEach_cons_of_mem hmem]
        obtain ⟨w, es, new, hrest, hw, hnears, hall⟩ := ih hu hdocs.2 hskip
        exact ⟨w, es, new, hrest, hw, hnears, hnears _ (hskip target hmem), hall⟩
      · obtain ⟨u₁, es₁, bytes, hcopy, hfile, hentries⟩ := hdocs.1.2 u hu
        obtain ⟨hnears₁, hthere⟩ := nears_of_wrote hfile hentries
        obtain ⟨w, es, new, hrest, hw, hnears, hall⟩ :=
          ih (hu.wrote hcomplete hdocs.1.1 (copy_keeps hcopy) hentries) hdocs.2 fun p hp =>
            hnears₁ _ (hskip p hp)
        refine ⟨w, es₁ ++ es, target :: new, ?_, hw, hnears₁.trans hnears, hnears _ hthere, hall⟩
        rw [copyEach_cons_of_ok hmem hcopy, hrest]
        rfl

/-! ## Other targets -/

/-- **The lines of a copy are the same** among other targets, if these are alike on the references
to files in it. -/
theorem copyLines?_congr {out : List Text}
    (h : copyLines? how ⟨t, targets, file, target⟩ = some out)
    (hmapped : ∀ e ∈ (copy how targets file target t).events, ∀ p, e.looked? = some p →
      t.exists? p = .ok true → (targets'.get? p).isSome = (targets.get? p).isSome) :
    copyLines? how ⟨t, targets', file, target⟩ = some out := by
  obtain ⟨ls, hread, hout⟩ := copyLines?_eq_some h
  obtain ⟨es, hlines⟩ : ∃ es, lines ⟨t, targets, file, target⟩ how.kinds how.attributes ls =
      (es, .ok out) := ⟨_, Prod.ext rfl hout⟩
  have hevents : (copy how targets file target t).events = .copied file target :: es := by
    rw [copy, hread]
    simp only [hlines]
  rw [hevents] at hmapped
  have hagrees : Copy.Agrees ⟨t, targets, file, target⟩ ⟨t, targets', file, target⟩ es :=
    ⟨rfl, rfl, rfl, fun _ _ _ _ => rfl, fun e he => hmapped e (List.mem_cons_of_mem _ he)⟩
  obtain ⟨es', hlines', -⟩ := lines_congr hlines hagrees
  have hread' : Document.read t file how.encoding = .ok ls := hread
  simp only [copyLines?, hread', hlines']
  rfl

end Relink

namespace Build

variable {b : Build} {t u : FileTree} {v w : Visit} {file target : Path}

/-! ## Visits that share a document -/

/-- Two visits agree on the references in a document, as they are read in this file tree: if the
path of one exists, both have a target for it, or none has. -/
def AgreesOn (b : Build) (t : FileTree) (v w : Visit) (file target : Path) : Prop :=
  ∀ e ∈ (Relink.copy b.copying (b.found v).targets file target t).events, ∀ p,
    e.looked? = some p → t.exists? p = .ok true →
      (p ∈ (b.found v).targets.keys ↔ p ∈ (b.found w).targets.keys)

instance (b : Build) (t : FileTree) (v w : Visit) (file target : Path) :
    Decidable (b.AgreesOn t v w file target) :=
  decidable_of_iff (∀ e ∈ (Relink.copy b.copying (b.found v).targets file target t).events,
      ∀ p ∈ e.looked?.toList, t.exists? p = .ok true →
        (p ∈ (b.found v).targets.keys ↔ p ∈ (b.found w).targets.keys)) <| by
    simp only [AgreesOn, Option.mem_toList]

/-- Visits that share a document agree on the references in it. -/
def SharesAlike (b : Build) (t : FileTree) (vs : List Visit) : Prop :=
  ∀ v ∈ vs, ∀ w ∈ vs, ∀ file target, b.Maps v file target → b.Maps w file target →
    b.AgreesOn t v w file target

instance (b : Build) (t : FileTree) (vs : List Visit) : Decidable (b.SharesAlike t vs) :=
  decidable_of_iff (∀ v ∈ vs, ∀ w ∈ vs, ∀ d ∈ (b.found v).targets.entries, b.Maps w d.1 d.2 →
      b.AgreesOn t v w d.1 d.2) <| by
    simp only [SharesAlike, Prod.forall, ← maps_iff_mem]

theorem AgreesOn.isSome_eq (h : b.AgreesOn t v w file target) {e : Event}
    (he : e ∈ (Relink.copy b.copying (b.found v).targets file target t).events) {p : Path}
    (hp : e.looked? = some p) (hexists : t.exists? p = .ok true) :
    ((b.found w).targets.get? p).isSome = ((b.found v).targets.get? p).isSome := by
  have hiff := h e he p hp hexists
  rw [Bool.eq_iff_iff, OrderedMap.get?_isSome, OrderedMap.get?_isSome]
  exact hiff.symm

/-! ## The first copy -/

section Quiet

variable (hb : b.Live) (ht : t.LinkFree) (hrun : (b.run t).result.isOk)

include hb ht hrun

/-- **The copy that a visit makes**, and the stage at which it is made. -/
theorem copyAt_stage (hv : v ∈ b.visits t) (hmaps : b.Maps v file target)
    (hnew : target ∉ v.written) :
    let u := (b.copyAt v file target).tree
    Stage (b.made t) t (b.run t).tree u ∧
      (Relink.copy b.copying (b.found v).targets file target u).result = .ok () ∧
      (Relink.copy b.copying (b.found v).targets file target u).events ⊆ (b.copies v).events := by
  intro u
  obtain ⟨before, after, hentries⟩ := List.append_of_mem (maps_iff_mem.1 hmaps)
  have hu : u = (Relink.copyEach b.copying (b.found v).targets v.written before v.tree).tree := by
    show (b.copyAt v file target).tree = _
    rw [copyAt, takeWhile_entries hentries]
  obtain ⟨-, -, page, new, -, -, -, hcopies, -⟩ := (run_runs hrun).split hv
  obtain ⟨hbefore, hafter⟩ := (run_runs hrun).between hv
  have hchanges := (visit_changes hb ht hrun hv).2 file target
  have hwhole : b.copies v = Relink.copyEach b.copying (b.found v).targets v.written
      (before ++ (file, target) :: after) v.tree := by
    rw [copies, Relink.copyAll, hentries]
  rw [hwhole] at hcopies hafter ⊢
  obtain ⟨first, rest, -, hrest, -, htree⟩ := Relink.copyEach_append hcopies
  obtain ⟨hcopy, -⟩ := Relink.copyEach_cons_eq_ok hnew hrest
  have hevents := Relink.events_subset_append hcopies
  rw [← hu] at hrest htree hcopy hevents
  have hkeeps : Keeps t u := by
    rw [hu]
    exact (hbefore.trans (Relink.copyEach_retains _ _ _ _ _)).toKeeps
  have hkeeps' : Keeps u (b.run t).tree := by
    rw [htree] at hafter
    exact ((Relink.copyEach_retains _ _ _ _ _).trans hafter).toKeeps
  refine ⟨stage_of_changes hkeeps hkeeps' hchanges, hcopy, List.Subset.trans ?_ hevents⟩
  rw [Relink.copyEach_cons_of_made hnew hcopy]
  exact List.subset_append_left _ _

variable (hnew : b.written = []) (hdistinct : b.Distinct t)
  (hsteady : ∀ p ∈ b.asked t, Steady (b.made t) t (b.run t).tree p) (halike : b.SharesAlike t (b.visits t))

include hnew hdistinct hsteady halike

/-- **Every visit makes the copy that is there in the end**, at any stage. -/
theorem repeats_of_maps (hv : v ∈ b.visits t) (hmaps : b.Maps v file target) :
    Relink.Repeats b.copying (b.found v).targets (b.made t) t (b.run t).tree file target := by
  have ht' := run_linkFree hb ht hrun
  have hfits := fits_of_maps hb ht hrun hnew hv hmaps
  -- The copy that is there has been made by the first visit with the place.
  have hmem : target ∈ (b.run t).written :=
    (run_runs hrun).mem_written_iff.2 (.inr ⟨v, hv, file, hmaps⟩)
  obtain ⟨first, hfirst, hunwritten, last, hlast, out, bytes, hout, hbytes, hfile⟩ :=
    exists_holds hb ht hrun hmem (by simp [hnew])
  obtain rfl : last = file := hdistinct first hfirst v hv last file target hlast.maps hmaps
  obtain ⟨hstage, hok, hsub⟩ := copyAt_stage hb ht hrun hfirst hlast.maps hunwritten
  have hlooked : ∀ e ∈ (Relink.copy b.copying (b.found first).targets last target
      (b.copyAt first last target).tree).events, ∀ p, e.looked? = some p →
        Steady (b.made t) t (b.run t).tree p := fun e he p hp =>
    hsteady p (mem_asked hfirst (mem_askedAt_of_looked? (hsub he) hp))
  have hread : Steady (b.made t) t (b.run t).tree last :=
    hsteady last (mem_asked hfirst (mem_askedAt_of_mem_keys (Search.mem_keys_of_get? hlast.maps)))
  -- At the beginning it meets the same references, so the other visit agrees on them.
  obtain ⟨-, -, t₁, es, hcopy, hsame, -⟩ := Relink.copy_again ht' hstage (start_stage hrun) hfits hok
    hread hlooked fun _ _ _ _ _ => rfl
  obtain rfl := hsame rfl
  have hmapped : ∀ e ∈ (Relink.copy b.copying (b.found first).targets last target
      (b.copyAt first last target).tree).events, ∀ p, e.looked? = some p →
        (b.copyAt first last target).tree.exists? p = .ok true →
          ((b.found v).targets.get? p).isSome = ((b.found first).targets.get? p).isSome := by
    intro e he p hp hexists
    rw [(hlooked e he p hp).exists?_eq (start_stage hrun) hstage] at hexists
    exact (halike first hfirst v hv last target hlast.maps hmaps).isSome_eq (by rwa [hcopy]) hp
      hexists
  intro u hu
  obtain ⟨bytes', hentries, w, es', hcopy', -, hentries'⟩ :=
    Relink.copy_again ht' hstage hu hfits hok hread hlooked hmapped
  -- The bytes are those that are there in the end.
  obtain ⟨out', bytes'', hout', hbytes'', hthere⟩ :=
    Relink.copy_holds (hstage.linkFree ht') hfits.normal hok
  have hcopied : b.copyAt first last target =
      ⟨(b.copyAt first last target).tree, (b.found first).targets, last, target⟩ := rfl
  rw [hcopied, hout', Option.some.injEq] at hout
  subst hout
  obtain rfl : bytes'' = bytes := Option.some.inj (hbytes''.symm.trans hbytes)
  rw [hentries, FileTree.wrote, if_pos rfl, Option.some.injEq, Entry.file.injEq] at hthere
  subst hthere
  exact ⟨w, es', bytes', hcopy', hfile, hentries'⟩

/-- Visits that share a document rewrite it to the same lines. -/
theorem copyLines?_shared (hv : v ∈ b.visits t) (hw : w ∈ b.visits t)
    (hmaps : b.Maps v file target) (hmaps' : b.Maps w file target) :
    ∃ out, Relink.copyLines? b.copying ⟨t, (b.found v).targets, file, target⟩ = some out ∧
      Relink.copyLines? b.copying ⟨t, (b.found w).targets, file, target⟩ = some out := by
  obtain ⟨u, es, bytes, hcopy, -, -⟩ := repeats_of_maps hb ht hrun hnew hdistinct hsteady halike hv
    hmaps t (start_stage hrun)
  obtain ⟨out, -, hout, -, -⟩ := Relink.copy_holds ht (hmaps.placed hb hv).1
    (by rw [hcopy] : (Relink.copy b.copying (b.found v).targets file target t).result = .ok ())
  exact ⟨out, hout, Relink.copyLines?_congr hout fun e he p hp hexists =>
    (halike v hv w hw file target hmaps hmaps').isSome_eq he hp hexists⟩

end Quiet

/-! ## Other orders -/

/-- Makes the pages of some documents, in order, where of the copies made so far only the known ones
are not made again. -/
def makePagesWith (b : Build) (known : List Path → List Path) :
    List (Path × Path) → FileTree → List Path → Progress
  | [], t, written => ⟨t, [], written, .ok []⟩
  | (file, target) :: rest, t, written =>
      let p := makePage b t (known written) file target
      match p.result with
      | .error e => ⟨p.tree, p.events, p.written, .error e⟩
      | .ok page =>
          let q := makePagesWith b known rest p.tree p.written
          ⟨q.tree, p.events ++ q.events, q.written, q.result.map (page ++ ·)⟩

theorem makePagesWith_cons_of_ok {known : List Path → List Path} {tree : FileTree}
    {written written' : List Path} {es : List Event} {pages : List Page} (docs : List (Path × Path))
    (hpage : b.makePage u (known written) file target = ⟨tree, es, written', .ok pages⟩) :
    b.makePagesWith known ((file, target) :: docs) u written =
      ⟨(b.makePagesWith known docs tree written').tree,
        es ++ (b.makePagesWith known docs tree written').events,
        (b.makePagesWith known docs tree written').written,
        (b.makePagesWith known docs tree written').result.map (pages ++ ·)⟩ := by
  rw [makePagesWith, hpage]

/-- A run that does not fail visits all documents at the source. -/
theorem exists_visit {docs : List (Path × Path)} {written : List Path} {pages : List Page}
    (hok : (b.makePages docs u written).result = .ok pages) (hmem : (file, target) ∈ docs) :
    ∃ v ∈ b.visitAll docs u written, v.file = file ∧ v.target = target := by
  induction docs generalizing u written pages with
  | nil => exact absurd hmem List.not_mem_nil
  | cons e docs ih =>
      obtain ⟨file', target'⟩ := e
      obtain ⟨page, new, rest, hfound, hcopies, hrest, -⟩ :=
        makePages_cons_eq_ok (v := ⟨u, written, file', target'⟩) hok
      rw [(makePages_cons_of_ok docs (makePage_of_ok hfound hcopies)).2]
      rcases List.mem_cons.1 hmem with heq | hlater
      · obtain ⟨rfl, rfl⟩ := Prod.mk.inj heq
        exact ⟨_, List.mem_cons_self, rfl, rfl⟩
      · obtain ⟨v, hv, hplace⟩ := ih hrest hlater
        exact ⟨v, List.mem_cons_of_mem _ hv, hplace⟩

section Quiet

variable (hb : b.Live) (ht : t.LinkFree) (hrun : (b.run t).result.isOk)
  (hsteady : ∀ p ∈ b.asked t, Steady (b.made t) t (b.run t).tree p)

include hb ht hrun hsteady

/-- **A visit finds the same** at any stage. -/
theorem found_again (hv : v ∈ b.visits t) (hu : Stage (b.made t) t (b.run t).tree u)
    (written : List Path) : b.found ⟨u, written, v.file, v.target⟩ = b.found v := by
  obtain ⟨hbefore, hafter⟩ := (run_runs hrun).between hv
  have hstage : Stage (b.made t) t (b.run t).tree v.tree :=
    stage_of_changes hbefore.toKeeps ((copies_retains b v).trans hafter).toKeeps
      (visit_changes hb ht hrun hv).1
  obtain ⟨-, -, page, -, -, -, hpage, -, -⟩ := (run_runs hrun).split hv
  exact collect_again hstage hu hpage fun p hp => hsteady p (mem_asked hv hp)

variable (hnew : b.written = []) (hdistinct : b.Distinct t) (halike : b.SharesAlike t (b.visits t))

include hnew hdistinct halike

/-- **Pages are made at any stage**, and their copies are those that are there in the end. -/
theorem makePagesWith_repeats {known : List Path → List Path} (hknown : ∀ ws, known ws ⊆ ws)
    {docs : List (Path × Path)} (hdocs : ∀ e ∈ docs, ∃ v ∈ b.visits t, v.file = e.1 ∧ v.target = e.2)
    {written : List Path} (hu : Stage (b.made t) t (b.run t).tree u)
    (hwritten : ∀ p ∈ written, u.entryAt p.location = (b.run t).tree.entryAt p.location) :
    ∃ w es written' pages, b.makePagesWith known docs u written = ⟨w, es, written', .ok pages⟩ ∧
      Stage (b.made t) t (b.run t).tree w ∧ Nears (b.run t).tree u w ∧
      ∀ v ∈ b.visits t, (v.file, v.target) ∈ docs → ∀ file target, b.Maps v file target →
        w.entryAt target.location = (b.run t).tree.entryAt target.location := by
  induction docs generalizing u written with
  | nil => exact ⟨u, [], written, [], rfl, hu, fun _ h => h, by simp⟩
  | cons e docs ih =>
      rw [List.forall_mem_cons] at hdocs
      obtain ⟨⟨v, hv, hplace⟩, hdocs⟩ := hdocs
      obtain ⟨file, target⟩ := e
      obtain ⟨rfl, rfl⟩ : v.file = file ∧ v.target = target := hplace
      -- The visit finds what it has found, and makes its copies.
      have hfound := found_again hb ht hrun hsteady hv hu (known written)
      obtain ⟨-, -, page, -, -, -, hpage, -, -⟩ := (run_runs hrun).split hv
      have hcopies : ∀ e ∈ (b.found v).targets.entries, Fits (b.made t) (b.run t).tree e.2 ∧
          Relink.Repeats b.copying (b.found v).targets (b.made t) t (b.run t).tree e.1 e.2 := by
        rintro ⟨file, target⟩ he
        have hmaps : b.Maps v file target := maps_iff_mem.2 he
        exact ⟨fits_of_maps hb ht hrun hnew hv hmaps,
          repeats_of_maps hb ht hrun hnew hdistinct hsteady halike hv hmaps⟩
      obtain ⟨w, es, new, hcopied, hw, hnears, hall⟩ := Relink.copyEach_repeats
        (fun loc hold hmade => mem_made_of_new hold hmade) hu hcopies
        fun p hp => hwritten p (hknown written hp)
      have hcopied' : b.copies ⟨u, known written, v.file, v.target⟩ = ⟨w, es, .ok new⟩ := by
        rw [copies, hfound]
        exact hcopied
      have hmade := makePagesWith_cons_of_ok docs
        (makePage_of_ok (v := ⟨u, known written, v.file, v.target⟩) (by rw [hfound, hpage])
          (by rw [hcopied']))
      rw [hcopied'] at hmade
      have hwritten' : ∀ p ∈ known written ++ new,
          w.entryAt p.location = (b.run t).tree.entryAt p.location := by
        intro p hp
        rcases List.mem_append.1 hp with hold | hcopy
        · exact hnears _ (hwritten p (hknown written hold))
        · obtain ⟨⟨file, hmaps⟩, -⟩ := (mem_new_iff (by rw [hcopied'])).1 hcopy
          rw [Maps, hfound] at hmaps
          exact hall _ (maps_iff_mem.1 hmaps)
      obtain ⟨x, es', written', pages, hrest, hx, hnears', hall'⟩ := ih hdocs hw hwritten'
      rw [hrest] at hmade
      refine ⟨x, _, written', _, hmade, hx, hnears.trans hnears', ?_⟩
      intro v' hv' hmem file target hmaps
      rcases List.mem_cons.1 hmem with heq | hlater
      · obtain ⟨hfile, htarget⟩ := Prod.mk.inj heq
        have hsame := found_again hb ht hrun hsteady hv' hu (known written)
        rw [hfile, htarget, hfound] at hsame
        refine hnears' _ (hall (file, target) (maps_iff_mem.1 ?_))
        rwa [Maps, hsame]
      · exact hall' v' hv' hlater file target hmaps

omit hsteady hnew hdistinct halike in
/-- **A stage with all copies** has the same entries as what the run leaves. -/
theorem entryAt_eq_of_written (hnew : b.written = []) (hu : Stage (b.made t) t (b.run t).tree u)
    (hwritten : ∀ p ∈ (b.run t).written,
      u.entryAt p.location = (b.run t).tree.entryAt p.location) (loc : Location) :
    u.entryAt loc = (b.run t).tree.entryAt loc := by
  rcases run_changes_written hb ht hrun loc with heq | ⟨p, hp, rfl, -⟩ | ⟨p, hp, habove, hnone, hdir⟩
  · by_cases hmade : loc ∈ b.made t
    · rcases List.mem_append.1 hmade with hcopy | hfresh
      · obtain ⟨p, hp, rfl⟩ := List.mem_map.1 hcopy
        exact hwritten p hp
      · -- What was not there is not there in the end either.
        have hnone : t.entryAt loc = none :=
          Option.isNone_iff_eq_none.1 (List.mem_filter.1 hfresh).2
        rw [heq, hnone]
        exact hu.after.none (heq.trans hnone)
    · rw [heq, hu.same loc hmade]
  · exact hwritten p hp.1
  · -- A directory above a copy, which is there.
    obtain ⟨first, -, -, last, -, out, bytes, -, -, hfile⟩ :=
      exists_holds hb ht hrun hp.1 (by simp [hnew])
    have hthere : u.entryAt p.location = some (.file bytes) := (hwritten p hp.1).trans hfile
    rw [hdir]
    refine directory_above_file hthere habove ?_
    rintro rfl
    rw [hdir] at hfile
    exact absurd hfile (by simp)

end Quiet

/-- **Passing over shared documents, and the order of the documents at the source, make no
difference** to what a quiet run leaves, if the visits that share a document agree on the references
in it. Any two visits that agree on the references in a document rewrite it to the same lines. -/
theorem run_unordered {source workingDir : Path} {attributes : Attributes} {encoding : Text}
    (hopen : open? t source workingDir attributes encoding = .ok b) :
    (∀ v w file target out, b.AgreesOn t v w file target →
      Relink.copyLines? b.copying ⟨t, (b.found v).targets, file, target⟩ = some out →
        Relink.copyLines? b.copying ⟨t, (b.found w).targets, file, target⟩ = some out) ∧
    (t.LinkFree → (b.run t).result.isOk → b.Distinct t → b.Quiet t →
      (∀ p ∈ b.asked t, (b.run t).tree.Answers p) → b.SharesAlike t (b.visits t) →
      (∀ v ∈ b.visits t, ∀ w ∈ b.visits t, ∀ file target, b.Maps v file target →
        b.Maps w file target →
          ∃ out, Relink.copyLines? b.copying ⟨t, (b.found v).targets, file, target⟩ = some out ∧
            Relink.copyLines? b.copying ⟨t, (b.found w).targets, file, target⟩ = some out) ∧
      ∀ es docs docs' known, b.topLevel t = (es, .ok docs) → docs'.Perm docs →
        (∀ ws, known ws ⊆ ws) →
          let p := b.makePagesWith known docs' t []
          p.result.isOk ∧ ∀ loc, p.tree.entryAt loc = (b.run t).tree.entryAt loc) := by
  refine ⟨fun v w file target out hagrees hout => Relink.copyLines?_congr hout
    fun e he p hp hexists => hagrees.isSome_eq he hp hexists, ?_⟩
  intro ht hrun hdistinct hquiet hanswers halike
  have hb : b.Live := .opened hopen
  have hbuild := open?_eq_ok hopen
  have hpages : b.pages = none := by rw [hbuild]
  have hnew : b.written = [] := by rw [hbuild]
  have hsteady := asked_steady hb ht hrun hquiet hanswers
  refine ⟨fun v hv w hw file target hmaps hmaps' =>
    copyLines?_shared hb ht hrun hnew hdistinct hsteady halike hv hw hmaps hmaps', ?_⟩
  intro es docs docs' known htop hperm hknown p
  have hvisits := visits_of_topLevel hpages htop
  obtain ⟨pages, hok⟩ : ∃ pages, (b.makePages docs t b.written).result = .ok pages := by
    rw [run_eq_of_topLevel hpages htop] at hrun
    exact Search.exists_ok_of_isOk hrun
  have hdocs : ∀ e ∈ docs', ∃ v ∈ b.visits t, v.file = e.1 ∧ v.target = e.2 := by
    rintro ⟨file, target⟩ he
    rw [hvisits]
    exact exists_visit hok (hperm.mem_iff.1 he)
  have hnone : ∀ p ∈ ([] : List Path), t.entryAt p.location = (b.run t).tree.entryAt p.location := by
    simp
  obtain ⟨w, es', written', pages', hmade, hw, -, hall⟩ := makePagesWith_repeats hb ht hrun hsteady
    hnew hdistinct halike hknown hdocs (start_stage hrun) hnone
  have hp : p = ⟨w, es', written', .ok pages'⟩ := hmade
  rw [hp]
  refine ⟨rfl, entryAt_eq_of_written hb ht hrun hnew hw fun q hq => ?_⟩
  -- Every copy is that of a document of some visit, and all visits have been made again.
  rcases (run_runs hrun).mem_written_iff.1 hq with hold | ⟨v, hv, file, hmaps⟩
  · rw [hnew] at hold
    exact absurd hold List.not_mem_nil
  · refine hall v hv (hperm.mem_iff.2 ?_) file q hmaps
    rw [hvisits] at hv
    exact mem_of_mem_visitAll hv

theorem shared_run_unordered :
    let source : Path := .ofText "/docs".toList
    let workingDir : Path := .ofText "/work".toList
    (open? sharedTree source workingDir .empty "utf-8".toList = .ok shared ∧ sharedTree.LinkFree ∧
      (shared.run sharedTree).result.isOk ∧ shared.Distinct sharedTree ∧ shared.Quiet sharedTree ∧
      (∀ p ∈ shared.asked sharedTree, (shared.run sharedTree).tree.Answers p) ∧
      shared.SharesAlike sharedTree (shared.visits sharedTree) ∧
      shared.topLevel sharedTree = ([.listed shared.source], .ok sharedDocs) ∧
      sharedDocs.reverse.Perm sharedDocs) ∧
    let p := shared.makePagesWith (fun _ => []) sharedDocs.reverse sharedTree []
    p.result.isOk ∧ ∀ loc, p.tree.entryAt loc = (shared.run sharedTree).tree.entryAt loc := by
  intro source workingDir
  have hopen : open? sharedTree source workingDir .empty "utf-8".toList = .ok shared :=
    open?_of_isOk (by decide +kernel)
  have hfree : sharedTree.LinkFree := linkFree_of_entries (by decide +kernel)
  have hrun := run_eq_of_topLevel (b := shared) rfl shared_topLevel
  have hvisits := visits_of_topLevel (b := shared) rfl shared_topLevel
  have hall : (shared.run sharedTree).result.isOk ∧ shared.Quiet sharedTree ∧
      (∀ p ∈ shared.asked sharedTree, (shared.run sharedTree).tree.Answers p) ∧
      shared.SharesAlike sharedTree (shared.visits sharedTree) := by
    rw [Quiet, made, asked, hrun, hvisits]
    decide +kernel
  obtain ⟨hdone, hquiet, hanswers, halike⟩ := hall
  refine ⟨⟨hopen, hfree, hdone, shared_distinct, hquiet, hanswers, halike, shared_topLevel,
    List.reverse_perm _⟩, ?_⟩
  exact ((run_unordered hopen).2 hfree hdone shared_distinct hquiet hanswers halike).2 _ _ _ _
    shared_topLevel (List.reverse_perm _) (fun _ => List.nil_subset _)

/-- The pages come in the order of the documents. -/
example :
    (shared.makePagesWith (fun _ => []) sharedDocs.reverse sharedTree []).result.toOption.map
      (·.map Page.path) = some (sharedDocs.reverse.map Prod.snd) := by
  decide +kernel

/-- Two documents at the source that include a third one, which refers to the first of them. -/
def crossedTree : FileTree :=
  .ofFiles [("/docs/a.adoc", "include::part/c.adoc[]\n"),
    ("/docs/b.adoc", "include::part/c.adoc[]\n"), ("/docs/part/c.adoc", "link:../a.adoc[A]\n")]

/-- A build of these documents below `/work`. -/
def crossed : Build :=
  ⟨Path.absolute crossedTree.cwdPath (.ofText "/docs".toList),
    Path.absolute crossedTree.cwdPath (.ofText "/work".toList), .empty, "utf-8".toList, [], none⟩

theorem crossed_topLevel :
    crossed.topLevel crossedTree = ([.listed crossed.source], .ok sharedDocs) :=
  topLevel_of_pairwise (.of_isOk (by decide +kernel)) (linkFree_of_entries (by decide +kernel))
    (by decide +kernel) (by decide +kernel) (by decide +kernel)

/-- **The copy differs** between the visits, since only one of them has a target for the document to
which it refers. So the order matters, and so does passing over it. -/
theorem crossed_copy_differs :
    let file : Path := .ofText "/docs/part/c.adoc".toList
    let target : Path := .ofText "/work/part/c.adoc".toList
    let referring := some (Entry.file ("link:../../docs/a.adoc[A]\n".toList.map fun c =>
      UInt8.ofNat c.toNat))
    (crossedTree.LinkFree ∧ (crossed.run crossedTree).result.isOk ∧ crossed.Quiet crossedTree ∧
      ∀ p ∈ crossed.asked crossedTree, (crossed.run crossedTree).tree.Answers p) ∧
    (∃ v ∈ crossed.visits crossedTree, ∃ w ∈ crossed.visits crossedTree,
      crossed.Maps v file target ∧ crossed.Maps w file target ∧
        Relink.copyLines? crossed.copying ⟨crossedTree, (crossed.found v).targets, file, target⟩ ≠
          Relink.copyLines? crossed.copying
            ⟨crossedTree, (crossed.found w).targets, file, target⟩) ∧
    (crossed.run crossedTree).tree.entryAt target.location = some (.file [10]) ∧
    (crossed.makePagesWith id sharedDocs.reverse crossedTree []).tree.entryAt target.location =
      referring ∧
    (crossed.makePagesWith (fun _ => []) sharedDocs crossedTree []).tree.entryAt target.location =
      referring := by
  intro file target referring
  have hfree : crossedTree.LinkFree := linkFree_of_entries (by decide +kernel)
  have hrun := run_eq_of_topLevel (b := crossed) rfl crossed_topLevel
  have hvisits := visits_of_topLevel (b := crossed) rfl crossed_topLevel
  have hquiet : (crossed.run crossedTree).result.isOk ∧ crossed.Quiet crossedTree ∧
      (∀ p ∈ crossed.asked crossedTree, (crossed.run crossedTree).tree.Answers p) ∧
      (crossed.run crossedTree).tree.entryAt target.location = some (.file [10]) := by
    rw [Quiet, made, asked, hrun, hvisits]
    decide +kernel
  obtain ⟨hdone, hquiet, hanswers, hleft⟩ := hquiet
  have hdiffer : ((crossed.visits crossedTree).any fun v => (crossed.visits crossedTree).any fun w =>
      decide (crossed.Maps v file target) && decide (crossed.Maps w file target) &&
        decide (Relink.copyLines? crossed.copying
            ⟨crossedTree, (crossed.found v).targets, file, target⟩ ≠
          Relink.copyLines? crossed.copying
            ⟨crossedTree, (crossed.found w).targets, file, target⟩)) = true := by
    rw [hvisits]
    decide +kernel
  obtain ⟨v, hv, hdiffer⟩ := List.any_eq_true.1 hdiffer
  obtain ⟨w, hw, hdiffer⟩ := List.any_eq_true.1 hdiffer
  simp only [Bool.and_eq_true, decide_eq_true_eq] at hdiffer
  obtain ⟨⟨hmaps, hmaps'⟩, hlines⟩ := hdiffer
  -- The reference stays if the copy is made in the second visit, or made anew in it.
  have hreferring :
      (crossed.makePagesWith id sharedDocs.reverse crossedTree []).tree.entryAt target.location =
        referring ∧
      (crossed.makePagesWith (fun _ => []) sharedDocs crossedTree []).tree.entryAt target.location =
        referring := by
    decide +kernel
  exact ⟨⟨hfree, hdone, hquiet, hanswers⟩, ⟨v, hv, w, hw, hmaps, hmaps', hlines⟩, hleft, hreferring⟩

end Build

end Folio

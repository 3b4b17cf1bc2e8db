import Folio.Proofs.Agreement
import Folio.Proofs.Removal
import Folio.Proofs.Writing

/-!
# Doing again what has been done

A build that has led from one file tree to another may be done again, from a tree that stands
between the two (`FileTree.Stage`): it has all that the first one has, it has nothing that the last
one has not, and it differs from the first one only where the build makes something.

A path is *steady* if all these trees tell the same of it. As long as all that a step asks about is
steady, **the step does again what it has done**: a search finds the same
(`Build.collect_again`), and copies are made with the same events and the same bytes
(`Relink.copyEach_again`, `Build.makePages_again`).

What the two trees hold afterwards is told location by location: where they were alike they still
are, and they have become alike where a copy was made.
-/

namespace Folio

open FileTree

/-! ## Stages -/

namespace FileTree

variable {t t' u w : FileTree} {made : List Location} {p : Path}

/-- A file tree between two others, which differs from the first one only at some locations. -/
structure Stage (made : List Location) (t t' u : FileTree) : Prop where
  before : Keeps t u
  after : Keeps u t'
  same : ∀ loc, loc ∉ made → u.entryAt loc = t.entryAt loc

/-- All trees between the two tell the same of the path. -/
def Steady (made : List Location) (t t' : FileTree) (p : Path) : Prop :=
  ∀ u, Stage made t t' u → u.status? p = t.status? p

/-- A file may be written at the path on the way from one tree to the other. -/
structure Fits (made : List Location) (t' : FileTree) (p : Path) : Prop where
  normal : p.Normal
  made : p.location ∈ made
  file : ∃ content, t'.entryAt p.location = some (.file content)

theorem Stage.linkFree (h : Stage made t t' u) (ht' : t'.LinkFree) : u.LinkFree :=
  h.after.linkFree ht'

/-- **A path at which nothing is made is steady**, if it can be told in the end. -/
theorem steady_of_not_mem (ht' : t'.LinkFree) (hp : p.Normal) (hmade : p.location ∉ made)
    (hanswers : t'.Answers p) : Steady made t t' p := by
  intro u hu
  have hfree := hu.linkFree ht'
  have hkeeps : Keeps t t' := hu.before.trans hu.after
  exact status?_congr (hkeeps.linkFree ht') hfree hp
    (hanswers.mono (hkeeps.linkFree ht') hp fun _ => hkeeps.directory)
    (hanswers.mono hfree hp fun _ => hu.after.directory) (hu.same _ hmade)

theorem Steady.status?_eq (h : Steady made t t' p) (hu : Stage made t t' u)
    (hw : Stage made t t' w) : w.status? p = u.status? p := by
  rw [h u hu, h w hw]

theorem Steady.exists?_eq (h : Steady made t t' p) (hu : Stage made t t' u)
    (hw : Stage made t t' w) : w.exists? p = u.exists? p := by
  rw [exists?, exists?, h.status?_eq hu hw]

theorem Steady.read (h : Steady made t t' p) (hu : Stage made t t' u) (hw : Stage made t t' w)
    {encoding : Text} {lines : List Text} (hread : Document.read u p encoding = .ok lines) :
    Document.read w p encoding = .ok lines := by
  obtain ⟨content, hcontent⟩ := Document.exists_status?_of_read hread
  exact Document.read_of_status? hread hcontent ((h.status?_eq hu hw).trans hcontent)

/-- **Writing a file goes from one stage to another.** -/
theorem Stage.wrote (hu : Stage made t t' u)
    (hcomplete : ∀ loc, t.entryAt loc = none → t'.entryAt loc ≠ none → loc ∈ made)
    (hp : Fits made t' p) {bytes : List UInt8} (hkeeps : Keeps u w)
    (hw : ∀ loc, w.entryAt loc = u.wrote p bytes loc) : Stage made t t' w := by
  obtain ⟨content, hfile⟩ := hp.file
  have habove : ∀ loc, loc <:+ p.location → loc ≠ p.location →
      t'.entryAt loc = some .directory := fun loc => directory_above_file hfile
  refine ⟨hu.before.trans hkeeps, ⟨hu.after.cwd.trans hkeeps.cwd.symm, fun {loc e} he => ?_⟩,
    fun loc hloc => ?_⟩
  · rw [hw, FileTree.wrote] at he
    split at he
    · next hat =>
        obtain rfl := Option.some.inj he
        exact ⟨.file content, hat ▸ hfile, trivial⟩
    · next hne =>
        split at he
        · next hsuffix =>
            obtain rfl := Option.some.inj he
            exact ⟨.directory, habove loc hsuffix hne, .refl _⟩
        · exact hu.after.entry he
  · have hne : loc ≠ p.location := fun h => hloc (h ▸ hp.made)
    rw [hw, FileTree.wrote, if_neg hne]
    split
    · next hsuffix =>
        -- It is a directory in the end, and it is not new.
        have hdir := habove loc hsuffix hne
        cases hold : t.entryAt loc with
        | none => exact absurd (hcomplete loc hold (by simp [hdir])) hloc
        | some e =>
            obtain ⟨e', he', hlike⟩ := (hu.before.trans hu.after).entry hold
            obtain rfl := Option.some.inj (hdir.symm.trans he')
            rw [Entry.alike_iff] at hlike
            rcases hlike with rfl | ⟨_, _, -, hno⟩
            · rfl
            · exact absurd hno (by simp)
    · exact hu.same loc hloc

end FileTree

/-! ## One copy -/

namespace Relink

variable {how : Copying} {targets targets' : Targets} {skip : List Path} {file target : Path}
  {t t' u w : FileTree} {made : List Location}

/-- **What a copy is made of**, if it is made: the lines of the document, and their bytes. -/
theorem copy_eq_ok (hu : u.LinkFree) (hp : target.Normal)
    (h : (copy how targets file target u).result = .ok ()) :
    ∃ ls es out bytes, Document.read u file how.encoding = .ok ls ∧
      lines ⟨u, targets, file, target⟩ how.kinds how.attributes ls = (es, .ok out) ∧
      target.Nameable ∧ Document.Encodes how.encoding out bytes ∧
      (copy how targets file target u).events = .copied file target :: es := by
  rw [copy] at h ⊢
  split at h
  · exact absurd h (by simp)
  · next ls hread =>
      simp only [hread]
      split at h
      · exact absurd h (by simp)
      · next es out hlines =>
          obtain ⟨hfits, bytes, hbytes⟩ := Document.encodes_of_write hu hp h
          exact ⟨ls, es, out, bytes, rfl, hlines, hfits, hbytes, rfl⟩

/-- **A copy can be made** where there is room. -/
theorem copy_made (hu : u.LinkFree) (hp : target.Normal) (hfits : target.Nameable)
    (hroom : Room u target) {ls out : List Text} {es : List Event} {bytes : List UInt8}
    (hread : Document.read u file how.encoding = .ok ls)
    (hlines : lines ⟨u, targets, file, target⟩ how.kinds how.attributes ls = (es, .ok out))
    (hbytes : Document.Encodes how.encoding out bytes) :
    ∃ w, copy how targets file target u = ⟨w, .copied file target :: es, .ok ()⟩ ∧
      ∀ loc, w.entryAt loc = u.wrote target bytes loc := by
  obtain ⟨w, hwrite, hentries⟩ := Document.write_made hu hp hfits hroom hbytes
  refine ⟨w, ?_, hentries⟩
  rw [copy, hread]
  simp only [hlines, hwrite]

/-- **A copy is made again**, with the same bytes, also if other documents have targets, as long as
no reference in it leads to one of these. -/
theorem copy_again (ht' : t'.LinkFree) (hu : Stage made t t' u) (hw : Stage made t t' w)
    (hp : Fits made t' target) (hok : (copy how targets file target u).result = .ok ())
    (hfile : Steady made t t' file)
    (hlooked : ∀ e ∈ (copy how targets file target u).events, ∀ p, e.looked? = some p →
      Steady made t t' p)
    (hmapped : ∀ e ∈ (copy how targets file target u).events, ∀ p, e.looked? = some p →
      u.exists? p = .ok true → (targets'.get? p).isSome = (targets.get? p).isSome) :
    ∃ bytes, (∀ loc, (copy how targets file target u).tree.entryAt loc =
        u.wrote target bytes loc) ∧
      ∃ w' es, copy how targets' file target w = ⟨w', es, .ok ()⟩ ∧
        (targets' = targets → es = (copy how targets file target u).events) ∧
        ∀ loc, w'.entryAt loc = w.wrote target bytes loc := by
  obtain ⟨ls, es, out, bytes, hread, hlines, hfits, hbytes, hevents⟩ :=
    copy_eq_ok (hu.linkFree ht') hp.normal hok
  obtain ⟨content, hthere⟩ := hp.file
  rw [hevents] at hlooked hmapped ⊢
  have hagrees : Copy.Agrees ⟨u, targets, file, target⟩ ⟨w, targets', file, target⟩ es := by
    refine ⟨rfl, rfl, ?_, fun e he p hp => ?_, fun e he p hp => ?_⟩
    · rw [cwdPath, cwdPath, hw.before.cwd, hu.before.cwd]
    · exact (hlooked e (List.mem_cons_of_mem _ he) p hp).exists?_eq hu hw
    · exact hmapped e (List.mem_cons_of_mem _ he) p hp
  obtain ⟨es', hlines', hsame⟩ := lines_congr hlines hagrees
  obtain ⟨u', hcopy, hentries⟩ := copy_made (hu.linkFree ht') hp.normal hfits
    (hu.after.room hthere) hread hlines hbytes
  obtain ⟨w', hcopy', hentries'⟩ := copy_made (hw.linkFree ht') hp.normal hfits
    (hw.after.room hthere) (hfile.read hu hw hread) hlines' hbytes
  refine ⟨bytes, fun loc => by rw [hcopy]; exact hentries loc, w', _, hcopy', fun hmaps => ?_,
    hentries'⟩
  rw [hsame hmaps]

/-! ## Copies one after another -/

/-- **Copies are made again.** The trees remain alike where they are, and become so where a copy is
made. -/
theorem copyEach_again (ht' : t'.LinkFree)
    (hcomplete : ∀ loc, t.entryAt loc = none → t'.entryAt loc ≠ none → loc ∈ made)
    (hu : Stage made t t' u) (hw : Stage made t t' w) {docs : List (Path × Path)}
    {new : List Path} (hok : (copyEach how targets skip docs u).result = .ok new)
    (hfiles : ∀ e ∈ docs, Steady made t t' e.1) (hnew : ∀ p ∈ new, Fits made t' p)
    (hlooked : ∀ e ∈ (copyEach how targets skip docs u).events, ∀ p, e.looked? = some p →
      Steady made t t' p) :
    Stage made t t' (copyEach how targets skip docs u).tree ∧
      ∃ w', copyEach how targets skip docs w =
          ⟨w', (copyEach how targets skip docs u).events, .ok new⟩ ∧ Stage made t t' w' ∧
        ∀ loc, w.entryAt loc = u.entryAt loc ∨ loc ∈ new.map Path.location →
          w'.entryAt loc = (copyEach how targets skip docs u).tree.entryAt loc := by
  induction docs generalizing u w new with
  | nil =>
      obtain rfl := Except.ok.inj hok
      exact ⟨hu, w, rfl, hw, fun loc hloc => hloc.resolve_right (by simp)⟩
  | cons e docs ih =>
      obtain ⟨file, target⟩ := e
      rw [List.forall_mem_cons] at hfiles
      by_cases hskip : target ∈ skip
      · rw [copyEach_cons_of_mem hskip] at hok hlooked ⊢
        rw [copyEach_cons_of_mem hskip]
        exact ih hu hw hok hfiles.2 hnew hlooked
      · obtain ⟨hcopy, rest, hrest, rfl⟩ := copyEach_cons_eq_ok hskip hok
        rw [List.forall_mem_cons] at hnew
        rw [copyEach_cons_of_made hskip hcopy] at hlooked ⊢
        simp only [List.mem_append] at hlooked
        obtain ⟨bytes, hentries, w₁, es, hagain, hsame, hentries'⟩ := copy_again ht' hu hw
          hnew.1 hcopy hfiles.1 (fun e he => hlooked e (.inl he)) (fun _ _ _ _ _ => rfl)
        obtain rfl := hsame rfl
        have hu₁ := hu.wrote hcomplete hnew.1 (copy_retains how targets file target u).toKeeps
          hentries
        have hw₁ := hw.wrote hcomplete hnew.1 (copy_keeps hagain) hentries'
        obtain ⟨hu₂, w₂, hrest', hw₂, hlike⟩ := ih hu₁ hw₁ hrest hfiles.2 hnew.2
          fun e he => hlooked e (.inr he)
        refine ⟨hu₂, w₂, ?_, hw₂, fun loc hloc => hlike loc ?_⟩
        · rw [copyEach_cons_of_ok hskip hagain, hrest', hrest]
          rfl
        · rw [hentries, hentries', FileTree.wrote, FileTree.wrote]
          rw [List.map_cons, List.mem_cons] at hloc
          by_cases hat : loc = target.location
          · exact .inl (by rw [if_pos hat, if_pos hat])
          · rw [if_neg hat, if_neg hat]
            rcases hloc with hbefore | hthere | hlater
            · exact .inl (by rw [hbefore])
            · exact absurd hthere hat
            · exact .inr hlater

end Relink

/-! ## Runs -/

/-- Whether it is asked if there is a file at the path of the directive. -/
def Directive.asks (d : Directive) : Bool :=
  !Document.isMarked d.further && Document.isPageName d.actual

theorem Directive.promotes?_of_not_asks {d : Directive} (h : d.asks = false) (t : FileTree) :
    d.promotes? t = .ok false := by
  rw [asks, Bool.and_eq_false_iff, Bool.not_eq_false'] at h
  rw [promotes?]
  rcases h with hmarked | hname
  · rw [if_pos hmarked]
  · rw [Document.isPage?, hname]
    simp

theorem Directive.promotes?_congr {d : Directive} {t u : FileTree}
    (h : d.asks = true → u.status? d.actual = t.status? d.actual) :
    d.promotes? u = d.promotes? t := by
  cases hasks : d.asks with
  | false => rw [promotes?_of_not_asks hasks, promotes?_of_not_asks hasks]
  | true => rw [promotes?, promotes?, Document.isPage?, Document.isPage?, isFile?, isFile?, h hasks]

namespace Build

variable {b : Build} {t t' u w : FileTree} {made : List Location} {v : Visit}

/-- The directives of the documents of a visit. -/
def directivesAt (b : Build) (v : Visit) : List Directive :=
  (b.found v).targets.entries.flatMap fun e =>
    (((b.search v).directives e.1 e.2).toOption).getD []

/-- **The paths about which a visit asks** the file tree: those of its documents, of the documents
that they include, and of the references in the copies that it makes. -/
def askedAt (b : Build) (v : Visit) : List Path :=
  (b.found v).targets.keys ++ ((b.directivesAt v).filter Directive.asks).map Directive.actual ++
    (b.copies v).events.filterMap Event.looked?

theorem mem_askedAt_of_mem_keys {file : Path} (h : file ∈ (b.found v).targets.keys) :
    file ∈ b.askedAt v :=
  List.mem_append_left _ (List.mem_append_left _ h)

theorem mem_askedAt_of_looked? {e : Event} (he : e ∈ (b.copies v).events) {p : Path}
    (hp : e.looked? = some p) : p ∈ b.askedAt v :=
  List.mem_append_right _ (List.mem_filterMap.2 ⟨e, he, hp⟩)

theorem mem_askedAt_of_asks {d : Directive} (hd : d ∈ b.directivesAt v) (hasks : d.asks = true) :
    d.actual ∈ b.askedAt v := by
  refine List.mem_append_left _ (List.mem_append_right _ ?_)
  exact List.mem_map_of_mem (List.mem_filter.2 ⟨hd, hasks⟩)

theorem mem_directivesAt {file target : Path} (hmaps : b.Maps v file target) {ds : List Directive}
    (hds : (b.search v).directives file target = .ok ds) {d : Directive} (hd : d ∈ ds) :
    d ∈ b.directivesAt v := by
  refine List.mem_flatMap.2 ⟨(file, target), maps_iff_mem.1 hmaps, ?_⟩
  simpa [hds, Except.toOption] using hd

/-- **A search finds again what it has found.** -/
theorem collect_again (hv : Stage made t t' v.tree) (hw : Stage made t t' w) {page : Page}
    (hpage : (b.found v).result = .ok page) (hasked : ∀ p ∈ b.askedAt v, Steady made t t' p) :
    Search.collect ⟨w, b.attributes, b.encoding⟩ v.file v.target .empty = b.found v := by
  refine Search.collect_congr (s := b.search v) fun file target hmaps => ?_
  have hkey : file ∈ (b.found v).targets.keys := Search.mem_keys_of_get? hmaps
  have hsteady : Steady made t t' file := hasked file (mem_askedAt_of_mem_keys hkey)
  obtain ⟨qs, hqs, -⟩ := Search.collect_promotions hpage hkey
  obtain ⟨lines, hread, -⟩ := exists_of_map_eq_ok hqs
  refine ⟨?_, fun ds hds d hd => Directive.promotes?_congr fun hasks => ?_⟩
  · have hread' : Document.read w file b.encoding = .ok lines := hsteady.read hv hw hread
    have hcwd : w.cwdPath = v.tree.cwdPath := by
      rw [cwdPath, cwdPath, hw.before.cwd, hv.before.cwd]
    have hread'' : Document.read v.tree file b.encoding = .ok lines := hread
    simp only [Search.directives, search, hread', hread'', hcwd]
  · have hmem := mem_directivesAt hmaps hds hd
    exact (hasked _ (mem_askedAt_of_asks hmem hasks)).status?_eq hv hw

/-- **A page is made again**: the search finds the same, and so the same copies are made. -/
theorem makePage_again (ht' : t'.LinkFree)
    (hcomplete : ∀ loc, t.entryAt loc = none → t'.entryAt loc ≠ none → loc ∈ made)
    (hu : Stage made t t' u) (hw : Stage made t t' w) {written : List Path} {file target : Path}
    {page : Page} {new : List Path} (hfound : (b.found ⟨u, written, file, target⟩).result = .ok page)
    (hcopies : (b.copies ⟨u, written, file, target⟩).result = .ok new)
    (hasked : ∀ p ∈ b.askedAt ⟨u, written, file, target⟩, Steady made t t' p)
    (hfits : ∀ file' target', b.Maps ⟨u, written, file, target⟩ file' target' →
      Fits made t' target') :
    Stage made t t' (b.copies ⟨u, written, file, target⟩).tree ∧
      ∃ w', b.makePage w written file target =
          ⟨w', (b.found ⟨u, written, file, target⟩).events ++
            (b.copies ⟨u, written, file, target⟩).events, written ++ new, .ok [page]⟩ ∧
        Stage made t t' w' ∧
        ∀ loc, w.entryAt loc = u.entryAt loc ∨ loc ∈ new.map Path.location →
          w'.entryAt loc = (b.copies ⟨u, written, file, target⟩).tree.entryAt loc := by
  have hfiles : ∀ e ∈ (b.found ⟨u, written, file, target⟩).targets.entries,
      Steady made t t' e.1 := fun e he =>
    hasked e.1 (mem_askedAt_of_mem_keys (List.mem_map_of_mem he))
  have hnew : ∀ p ∈ new, Fits made t' p := by
    intro p hp
    obtain ⟨⟨file', hmaps⟩, -⟩ := (mem_new_iff hcopies).1 hp
    exact hfits file' p hmaps
  obtain ⟨hu₁, w₁, hcopies', hw₁, hlike⟩ := Relink.copyEach_again ht' hcomplete hu hw hcopies
    hfiles hnew fun e he p hp => hasked p (mem_askedAt_of_looked? he hp)
  have hfound' : b.found ⟨w, written, file, target⟩ = b.found ⟨u, written, file, target⟩ :=
    collect_again hu hw hfound hasked
  have hcopied : b.copies ⟨w, written, file, target⟩ =
      ⟨w₁, (b.copies ⟨u, written, file, target⟩).events, .ok new⟩ := by
    rw [copies, hfound']
    exact hcopies'
  have hmade := makePage_of_ok (v := ⟨w, written, file, target⟩) (hfound' ▸ hfound) (by rw [hcopied])
  rw [hfound', hcopied] at hmade
  exact ⟨hu₁, w₁, hmade, hw₁, hlike⟩

/-- **Pages are made again.** -/
theorem makePages_again (ht' : t'.LinkFree)
    (hcomplete : ∀ loc, t.entryAt loc = none → t'.entryAt loc ≠ none → loc ∈ made)
    (hu : Stage made t t' u) (hw : Stage made t t' w) {docs : List (Path × Path)}
    {written : List Path} {pages : List Page}
    (hok : (b.makePages docs u written).result = .ok pages)
    (hasked : ∀ v ∈ b.visitAll docs u written, ∀ p ∈ b.askedAt v, Steady made t t' p)
    (hfits : ∀ v ∈ b.visitAll docs u written, ∀ file target, b.Maps v file target →
      Fits made t' target) :
    ∃ w', b.makePages docs w written = ⟨w', (b.makePages docs u written).events,
        (b.makePages docs u written).written, .ok pages⟩ ∧
      ∀ loc, w.entryAt loc = u.entryAt loc ∨
        (∃ p ∈ (b.makePages docs u written).written, p ∉ written ∧ loc = p.location) →
        w'.entryAt loc = (b.makePages docs u written).tree.entryAt loc := by
  induction docs generalizing u w written pages with
  | nil =>
      obtain rfl := Except.ok.inj hok
      refine ⟨w, rfl, fun loc hloc => hloc.resolve_right ?_⟩
      rintro ⟨p, hp, hnew, -⟩
      exact hnew hp
  | cons e docs ih =>
      obtain ⟨file, target⟩ := e
      obtain ⟨page, new, rest, hfound, hcopies, hrest, rfl⟩ :=
        makePages_cons_eq_ok (v := ⟨u, written, file, target⟩) hok
      obtain ⟨hmade, hvisits⟩ := makePages_cons_of_ok docs (makePage_of_ok hfound hcopies)
      rw [hmade]
      rw [hvisits, List.forall_mem_cons] at hasked hfits
      obtain ⟨hu₁, w₁, hagain, hw₁, hlike⟩ :=
        makePage_again ht' hcomplete hu hw hfound hcopies hasked.1 hfits.1
      rw [(makePages_cons_of_ok docs hagain).1]
      obtain ⟨w₂, hrest', hlike'⟩ := ih hu₁ hw₁ hrest hasked.2 hfits.2
      refine ⟨w₂, by rw [hrest']; rfl, fun loc hloc => hlike' loc ?_⟩
      rcases hloc with hbefore | ⟨p, hp, hunwritten, rfl⟩
      · exact .inl (hlike loc (.inl hbefore))
      · by_cases hfirst : p ∈ new
        · exact .inl (hlike _ (.inr (List.mem_map_of_mem hfirst)))
        · exact .inr ⟨p, hp, by simp [hunwritten, hfirst], rfl⟩

end Build

end Folio

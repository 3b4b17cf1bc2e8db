import Folio.Proofs.Footprint
import Folio.Proofs.Places

/-!
# What a build changes outside its working directory

**Theorem (`Build.run_keeps_outside`).** Where there are no links, a run leaves everything as it is
that does not lie below its working directory, but for missing directories above it, *just if* the
copies that it places elsewhere change nothing there. And it does so if every promoted document lies
below the directory of the source.

Some such condition is needed. A copy is placed at the offset from the including document that the
document itself has, so a document above the source gets a place above the working directory.
`escape_changes_source` has a source document that is overwritten by its own copy.

Copies are made where their paths say, since all places are normal (`run_changes`). As long as
documents and places mirror each other, these places lie below the working directory.
-/

namespace Folio

open FileTree

/-! ## Copies -/

/-- A copy is made at this place, of a document with the property. -/
def Copied (P : Path → Path → Prop) (es : List Event) (p : Path) : Prop :=
  ∃ file, .copied file p ∈ es ∧ P file p

theorem Copied.mono {P : Path → Path → Prop} {es es' : List Event} (h : es ⊆ es') (p : Path)
    (hp : Copied P es p) : Copied P es' p := by
  obtain ⟨file, hmem, hfile⟩ := hp
  exact ⟨file, h hmem, hfile⟩

namespace Relink

variable {P : Path → Path → Prop} {t : FileTree}

theorem copy_changes (ht : t.LinkFree) (how : Copying) (targets : Targets) {file target : Path}
    (hnormal : target.Normal) (hfile : P file target) :
    Changes (Copied P (copy how targets file target t).events) t
      (copy how targets file target t).tree := by
  rw [copy]
  split
  · exact .refl _ _
  · split
    · exact .refl _ _
    · refine (Document.write_changes ht hnormal how.encoding _).mono ?_
      rintro p rfl
      exact ⟨file, List.mem_cons_self, hfile⟩

/-- **Making copies** changes nothing but the copies and what is above them. -/
theorem copyEach_changes (ht : t.LinkFree) (how : Copying) (targets : Targets) (skip : List Path)
    {docs : List (Path × Path)} (hnormal : ∀ e ∈ docs, e.2.Normal)
    (hdocs : ∀ e ∈ docs, P e.1 e.2) :
    Changes (Copied P (copyEach how targets skip docs t).events) t
      (copyEach how targets skip docs t).tree := by
  induction docs generalizing t with
  | nil => exact .refl _ _
  | cons e docs ih =>
      obtain ⟨file, target⟩ := e
      rw [List.forall_mem_cons] at hnormal hdocs
      rw [copyEach]
      split
      · exact ih ht hnormal.2 hdocs.2
      · have hcopy := copy_changes ht how targets hnormal.1 hdocs.1
        split
        · next hc =>
            rw [hc] at hcopy
            exact hcopy
        · next t₁ es hc =>
            rw [hc] at hcopy
            have hrest := ih (ht.of_changes hcopy) hnormal.2 hdocs.2
            exact (hcopy.mono (Copied.mono (List.subset_append_left _ _))).trans
              (hrest.mono (Copied.mono (List.subset_append_right _ _)))

end Relink

/-! ## Runs -/

theorem Mirrors.location_suffix {source dest file target : Path}
    (h : Mirrors source dest file target) : dest.location <:+ target.location := by
  obtain ⟨-, names, -, -, rfl⟩ := h
  exact List.reverse_suffix.2 (List.prefix_append dest.names names)

namespace Build

section Changes

variable {allowed : Path → Prop} {P : Path → Path → Prop} {t : FileTree}

theorem makePage_changes (hP : Inherits allowed P) (hnormal : ∀ file target, P file target →
    target.Normal) (ht : t.LinkFree) (b : Build) (written : List Path) {file target : Path}
    (hfile : P file target) (hes : Allowed allowed (b.makePage t written file target).events) :
    Changes (Copied P (b.makePage t written file target).events) t
      (b.makePage t written file target).tree := by
  rw [makePage] at hes ⊢
  simp only at hes ⊢
  generalize hsearch : Search.collect ⟨t, b.attributes, b.encoding⟩ file target .empty = found
    at hes ⊢
  split at hes
  · exact .refl _ _
  · next page hpage =>
      have hall : found.targets.All P := by
        subst hsearch
        refine Search.collect_all hP hpage hfile (hes.mono ?_)
        split <;> exact List.subset_append_left _ _
      have hdocs : ∀ e ∈ found.targets.entries, P e.1 e.2 := fun e he =>
        hall e.1 e.2 (OrderedMap.get?_eq_some_iff.2 he)
      have hcopies := (Relink.copyEach_changes ht ⟨b.attributes, b.encoding, Reference.all⟩
        found.targets written (fun e he => hnormal e.1 e.2 (hdocs e he)) hdocs).mono
          (Copied.mono (List.subset_append_right found.events _))
      split <;> exact hcopies

theorem makePages_changes (hP : Inherits allowed P) (hnormal : ∀ file target, P file target →
    target.Normal) (b : Build) {docs : List (Path × Path)} (hdocs : ∀ e ∈ docs, P e.1 e.2)
    (ht : t.LinkFree) (written : List Path)
    (hes : Allowed allowed (b.makePages docs t written).events) :
    Changes (Copied P (b.makePages docs t written).events) t (b.makePages docs t written).tree := by
  induction docs generalizing t written with
  | nil => exact .refl _ _
  | cons e docs ih =>
      obtain ⟨file, target⟩ := e
      rw [List.forall_mem_cons] at hdocs
      rw [makePages] at hes ⊢
      simp only at hes ⊢
      split at hes
      · exact makePage_changes hP hnormal ht b written hdocs.1 hes
      · have hpage := makePage_changes hP hnormal ht b written hdocs.1
          (hes.mono (List.subset_append_left _ _))
        have hrest := ih hdocs.2 (ht.of_changes hpage) (b.makePage t written file target).written
          (hes.mono (List.subset_append_right _ _))
        exact (hpage.mono (Copied.mono (List.subset_append_left _ _))).trans
          (hrest.mono (Copied.mono (List.subset_append_right _ _)))

/-- **A run changes** nothing but copies of documents with the property, and what is above them, if
the documents at the source have the property. -/
theorem run_changes (hP : Inherits allowed P) (hnormal : ∀ file target, P file target →
    target.Normal) (b : Build)
    (hdocs : ∀ es docs, b.topLevel t = (es, .ok docs) → ∀ e ∈ docs, P e.1 e.2) (ht : t.LinkFree)
    (hes : Allowed allowed (b.run t).events) :
    Changes (Copied P (b.run t).events) t (b.run t).tree := by
  unfold run at hes ⊢
  cases hpages : b.pages with
  | some pages => exact .refl _ _
  | none =>
      rw [hpages] at hes
      simp only [make] at hes ⊢
      split at hes
      · exact .refl _ _
      · next es docs htop =>
          exact (makePages_changes hP hnormal b (hdocs es docs htop) ht b.written
            (hes.mono (List.subset_append_right _ _))).mono
              (Copied.mono (List.subset_append_right _ _))

end Changes

/-! ## Outside the working directory -/

/-- What stands at a location is as it was, or is a new directory above the location `top`. -/
def KeptAt (top : Location) (t t' : FileTree) (loc : Location) : Prop :=
  t'.entryAt loc = t.entryAt loc ∨
    loc <:+ top ∧ t.entryAt loc = none ∧ t'.entryAt loc = some .directory

/-- Everything is kept that does not stand at `top` or below. -/
def KeptOutside (top : Location) (t t' : FileTree) : Prop :=
  ∀ loc, ¬ top <:+ loc → KeptAt top t t' loc

/-- **What copies change outside of a directory** stands on the way to those of them that are
placed outside. -/
theorem keptOutside_iff_of_changes {top : Location} {paths : Path → Prop} {t t' : FileTree}
    (h : Changes paths t t') :
    KeptOutside top t t' ↔
      ∀ p, paths p → ¬ top <:+ p.location → ∀ loc, loc <:+ p.location → KeptAt top t t' loc := by
  constructor
  · exact fun hkept p _ hout loc hloc => hkept loc fun htop => hout (htop.trans hloc)
  · intro hway loc hout
    rcases h loc with heq | ⟨p, hp, rfl, -⟩ | ⟨p, hp, hloc, hnone, hdir⟩
    · exact .inl heq
    · exact hway p hp hout _ List.suffix_rfl
    · by_cases hin : top <:+ p.location
      · rcases List.suffix_or_suffix_of_suffix hloc hin with habove | hbelow
        · exact .inr ⟨habove, hnone, hdir⟩
        · exact absurd hbelow hout
      · exact hway p hp hin loc hloc

/-- **A run keeps what is outside of its working directory** just if no copy that it places outside
changes anything on the way to its place; and it does so if every document that it promotes lies
below the directory of the source. -/
theorem run_keeps_outside {b : Build} (hb : b.Live) {t : FileTree} (ht : t.LinkFree) :
    (KeptOutside b.workingDir.location t (b.run t).tree ↔
      ∀ file target, .copied file target ∈ (b.run t).events →
        ¬ b.workingDir.location <:+ target.location → ∀ loc, loc <:+ target.location →
          KeptAt b.workingDir.location t (b.run t).tree loc) ∧
    ((∀ path actual result file target,
        .promoted path actual result file target ∈ (b.run t).events → (b.home t).Below actual) →
      KeptOutside b.workingDir.location t (b.run t).tree) := by
  obtain ⟨-, hdest⟩ := hb.normal
  constructor
  · have hdocs : ∀ es docs, b.topLevel t = (es, .ok docs) →
        ∀ e ∈ docs, e.1.Normal ∧ e.2.Normal := fun es docs htop e he =>
      have hmirrors := mirrors_topLevel hb htop e he
      ⟨hmirrors.1, hmirrors.normal hdest⟩
    have hchanges := run_changes inherits_normal (fun _ _ hp => hp.2) b hdocs ht
      fun _ _ _ _ _ _ => trivial
    constructor
    · exact fun hkept _ _ _ hout loc hloc => hkept loc fun htop => hout (htop.trans hloc)
    · intro hway
      rw [keptOutside_iff_of_changes hchanges]
      rintro p ⟨file, hcopied, -⟩
      exact hway file p hcopied
  · intro hbelow
    have hchanges := run_changes (inherits_mirrors hdest) (fun _ _ h => Mirrors.normal hdest h) b
      (fun es docs htop => mirrors_topLevel hb htop) ht hbelow
    rw [keptOutside_iff_of_changes hchanges]
    rintro p ⟨file, -, hmirrors⟩ hout
    exact absurd hmirrors.location_suffix hout

/-- A document, and a document in another directory that it includes with all that belongs to it. -/
def escapeTree : FileTree :=
  .ofFiles [("/src/index.adoc", "include::../other/doc.adoc[]\n"),
    ("/other/doc.adoc", "include::part.adoc[]\n"), ("/other/part.adoc", "")]

/-- A build of the pages of one of these documents below `/work`. -/
def escape (source : String) : Build :=
  ⟨Path.absolute escapeTree.cwdPath (.ofText source.toList),
    Path.absolute escapeTree.cwdPath (.ofText "/work".toList), .empty, "utf-8".toList, [], none⟩

theorem escape_live {source : String} (h : (open? escapeTree (.ofText source.toList)
    (.ofText "/work".toList) .empty "utf-8".toList).isOk) : (escape source).Live :=
  .of_isOk h

theorem escapeTree_linkFree : escapeTree.LinkFree := linkFree_of_entries (by decide +kernel)

theorem inside_keeps_outside :
    ((escape "/other/doc.adoc").Live ∧ escapeTree.LinkFree) ∧
    KeptOutside (escape "/other/doc.adoc").workingDir.location escapeTree
      ((escape "/other/doc.adoc").run escapeTree).tree := by
  have hlive : (escape "/other/doc.adoc").Live := escape_live (by decide +kernel)
  have hallowed : ∀ e ∈ ((escape "/other/doc.adoc").run escapeTree).events,
      ∀ actual ∈ e.promoted?, ((escape "/other/doc.adoc").home escapeTree).Below actual := by
    decide +kernel
  exact ⟨⟨hlive, escapeTree_linkFree⟩,
    (run_keeps_outside hlive escapeTree_linkFree).2 (allowed_of_promoted? hallowed)⟩

/-- **A document is overwritten by its own copy.** The build ends with its pages, and the line of
the document outside is gone. -/
theorem escape_changes_source :
    let b := escape "/src/index.adoc"
    let p := b.run escapeTree
    let doc := (Path.ofText "/other/doc.adoc".toList).location
    b.Live ∧ escapeTree.LinkFree ∧ ¬ b.workingDir.location <:+ b.source.location ∧
      p.result.isOk = true ∧ ¬ b.workingDir.location <:+ doc ∧
      escapeTree.entryAt doc =
        some (.file ("include::part.adoc[]\n".toList.map fun c => UInt8.ofNat c.toNat)) ∧
      p.tree.entryAt doc = some (.file [10]) ∧
      ¬ KeptOutside b.workingDir.location escapeTree p.tree := by
  intro b p doc
  have hlive : b.Live := escape_live (by decide +kernel)
  have hsource : ¬ b.workingDir.location <:+ b.source.location := by decide +kernel
  have hdone : p.result.isOk = true := by decide +kernel
  have hout : ¬ b.workingDir.location <:+ doc := by decide +kernel
  have hbefore : escapeTree.entryAt doc =
      some (.file ("include::part.adoc[]\n".toList.map fun c => UInt8.ofNat c.toNat)) := by
    decide +kernel
  have hafter : p.tree.entryAt doc = some (.file [10]) := by decide +kernel
  have hne : p.tree.entryAt doc ≠ escapeTree.entryAt doc := by decide +kernel
  refine ⟨hlive, escapeTree_linkFree, hsource, hdone, hout, hbefore, hafter, fun h => ?_⟩
  rcases h doc hout with heq | ⟨-, hnone, -⟩
  · exact hne heq
  · rw [hbefore] at hnone
    exact absurd hnone (by simp)

end Build

end Folio

import Folio.Proofs.Visits

/-!
# Where the documents of a run have their places

The place of an included document is found by a step: its offset from the including document is
kept. The place of a document at the source is found at once, by moving it from below the source to
below the working directory.

**Theorem (`Build.target_eq_join`).** As long as all documents with a target lie below the directory
of the source, the steps lead where the move leads. So the place of a document is the working
directory followed by the names that the document has below the source, by whatever steps it was
reached, in every visit, and also if it stands at the source itself.

The proof needs no more than the growth of the targets (`Grows`): that document and place mirror
each other passes from a document to those that its directives name (`Grows.all`).
-/

namespace Folio

open FileTree

/-! ## Along the growth of the targets -/

theorem Search.Grows.all {s : Search} {allowed : Path → Prop} {P : Path → Path → Prop}
    (hP : Inherits allowed P) {m m' : Targets} (h : s.Grows m m') (hm : m.All P)
    (hkeys : ∀ file ∈ m'.keys, allowed file) : m'.All P := by
  induction h with
  | refl => exact hm
  | @step m' d _ hd _ hnone ih =>
      rw [keys_insert_of_get?_eq_none hnone] at hkeys
      have hm' : m'.All P := ih fun file hfile => hkeys file (List.mem_append_left _ hfile)
      obtain ⟨file, target, ds, hfile, hds, hmem⟩ := hd
      apply all_insert hm'
      exact all_directives hP hds (hm' file target hfile) d hmem
        (hkeys d.actual (List.mem_append_right _ (List.mem_singleton_self _)))

/-! ## Where mirroring leads -/

theorem Mirrors.eq_join {source dest file target : Path} (h : Mirrors source dest file target) :
    target = dest.join ⟨.here, file.names.drop source.names.length⟩ := by
  obtain ⟨-, names, -, hnames, rfl⟩ := h
  rw [hnames, List.drop_left, Path.join_here]

theorem Mirrors.graft?_eq {source dest file target : Path} (h : Mirrors source dest file target)
    (hdest : dest.Normal) (hanchor : file.anchor = source.anchor) :
    Path.graft? source file dest = some target := by
  have hnormal := h.normal hdest
  obtain ⟨-, names, -, hnames, rfl⟩ := h
  have hbelow : Path.below? source file = some names := by
    simp [Path.below?, hanchor, hnames]
  rw [Path.graft?, hbelow, Option.map_some, hnormal.normalize_eq]

/-- No two documents that start at the same root have the same place. -/
theorem Mirrors.file_eq {source dest file file' target : Path}
    (h : Mirrors source dest file target) (h' : Mirrors source dest file' target)
    (hanchor : file.anchor = file'.anchor) : file = file' := by
  obtain ⟨-, names, -, hnames, rfl⟩ := h
  obtain ⟨-, names', -, hnames', htarget⟩ := h'
  obtain rfl : names = names' := List.append_cancel_left (congrArg Path.names htarget)
  cases file
  cases file'
  simp_all

namespace Build

variable {b : Build} {t : FileTree} {v : Visit}

theorem found_all {allowed : Path → Prop} {P : Path → Path → Prop} (hP : Inherits allowed P)
    (hfile : P v.file v.target) (hkeys : ∀ file ∈ (b.found v).targets.keys, allowed file) :
    (b.found v).targets.All P := by
  have hempty : Targets.All P .empty := fun p _ hp => absurd hp (by simp)
  exact (Search.collect_grows (OrderedMap.get?_empty v.file)).all hP
    (Search.all_insert hempty hfile) hkeys

theorem mirrors_visit (hb : b.Live) (hv : v ∈ b.visits t) :
    Mirrors (b.home t) b.workingDir v.file v.target := by
  obtain ⟨es, docs, htop, hmem⟩ := exists_topLevel_of_mem_visits hv
  exact mirrors_topLevel hb htop _ hmem

/-- Document and place are normal, and the place starts at the root of the working directory. -/
def Placed (b : Build) (file target : Path) : Prop :=
  file.Normal ∧ target.Normal ∧ target.anchor = b.workingDir.anchor

theorem targetOf_anchor (base file target other : Path) :
    (Document.targetOf base file target other).anchor = target.anchor := by
  rw [Document.targetOf, Path.relativeTo, Path.join_here]
  rfl

theorem inherits_placed (b : Build) : Inherits (fun _ => True) b.Placed := by
  rintro base file target path ⟨hfile, htarget, hanchor⟩ -
  refine ⟨Path.refer_normal hfile.absolute path, Path.targetOf_normal htarget.absolute, ?_⟩
  rw [targetOf_anchor, hanchor]

/-- **Every place of a run** is a normal path. -/
theorem found_placed (hb : b.Live) (hv : v ∈ b.visits t) : (b.found v).targets.All b.Placed := by
  have hmirrors := mirrors_visit hb hv
  obtain ⟨-, names, -, -, htarget⟩ := id hmirrors
  have hplaced : b.Placed v.file v.target :=
    ⟨hmirrors.1, hmirrors.normal hb.normal.2, by rw [htarget]⟩
  exact found_all (inherits_placed b) hplaced fun _ _ => trivial

/-! ## Below the source -/

theorem found_mirrors (hb : b.Live) (hv : v ∈ b.visits t)
    (hbelow : ∀ file ∈ (b.found v).targets.keys, (b.home t).Below file) :
    (b.found v).targets.All (Mirrors (b.home t) b.workingDir) :=
  found_all (inherits_mirrors hb.normal.2) (mirrors_visit hb hv) hbelow

/-- **The place of a document below the source** is the working directory with the names that the
document has there. So it is the same in all visits of this kind and at the source, and it is the
place to which the document moves from the source. -/
theorem target_eq_join (hb : b.Live) (hv : v ∈ b.visits t)
    (hbelow : ∀ file ∈ (b.found v).targets.keys, (b.home t).Below file) {file target : Path}
    (hfile : (b.found v).targets.get? file = some target) :
    target = b.workingDir.join ⟨.here, file.names.drop (b.home t).names.length⟩ ∧
      (file.anchor = (b.home t).anchor →
        Path.graft? (b.home t) file b.workingDir = some target) ∧
      (∀ v' ∈ b.visits t, (∀ file' ∈ (b.found v').targets.keys, (b.home t).Below file') →
        ∀ target', (b.found v').targets.get? file = some target' → target' = target) ∧
      ∀ es docs, b.topLevel t = (es, .ok docs) → ∀ e ∈ docs, e.1 = file → e.2 = target := by
  have hmirrors := found_mirrors hb hv hbelow file target hfile
  refine ⟨hmirrors.eq_join, hmirrors.graft?_eq hb.normal.2, ?_, ?_⟩
  · intro v' hv' hbelow' target' hfile'
    rw [hmirrors.eq_join, (found_mirrors hb hv' hbelow' file target' hfile').eq_join]
  · rintro es docs htop e he rfl
    rw [hmirrors.eq_join, (mirrors_topLevel hb htop e he).eq_join]

/-- Documents that are reached downwards, upwards and at the source. -/
def ladderTree : FileTree :=
  .ofFiles [("/docs/index.adoc", "include::a/b/x.adoc[]\n"),
    ("/docs/a/b/x.adoc", "include::../y.adoc[]\ninclude::../../index.adoc[]\n"),
    ("/docs/a/y.adoc", "include::b/../../z.adoc[]\n"), ("/docs/z.adoc", "")]

/-- A build of these documents below `/work`. -/
def ladder : Build :=
  ⟨Path.absolute ladderTree.cwdPath (.ofText "/docs/index.adoc".toList),
    Path.absolute ladderTree.cwdPath (.ofText "/work".toList), .empty, "utf-8".toList, [], none⟩

theorem ladder_live : ladder.Live := .of_isOk (by decide +kernel)

theorem ladder_target_eq_join :
    let z : Path := .ofText "/docs/z.adoc".toList
    let place : Path := .ofText "/work/z.adoc".toList
    ∃ v ∈ ladder.visits ladderTree, v.file = .ofText "/docs/index.adoc".toList ∧
      (∀ file ∈ (ladder.found v).targets.keys, (ladder.home ladderTree).Below file) ∧
      (ladder.found v).targets.get? z = some place ∧
      (place = ladder.workingDir.join ⟨.here, z.names.drop (ladder.home ladderTree).names.length⟩ ∧
        (z.anchor = (ladder.home ladderTree).anchor →
          Path.graft? (ladder.home ladderTree) z ladder.workingDir = some place) ∧
        (∀ v' ∈ ladder.visits ladderTree,
          (∀ file' ∈ (ladder.found v').targets.keys, (ladder.home ladderTree).Below file') →
          ∀ target', (ladder.found v').targets.get? z = some target' → target' = place) ∧
        ∀ es docs, ladder.topLevel ladderTree = (es, .ok docs) →
          ∀ e ∈ docs, e.1 = z → e.2 = place) := by
  intro z place
  have hfirst : ((ladder.visits ladderTree).any fun v =>
      decide (v.file = .ofText "/docs/index.adoc".toList) &&
        ((ladder.found v).targets.keys.all fun file =>
          decide ((ladder.home ladderTree).Below file)) &&
        decide ((ladder.found v).targets.get? z = some place)) = true := by
    decide +kernel
  obtain ⟨v, hv, hvisit⟩ := List.any_eq_true.1 hfirst
  simp only [Bool.and_eq_true, List.all_eq_true, decide_eq_true_eq] at hvisit
  obtain ⟨⟨hindex, hbelow⟩, hz⟩ := hvisit
  exact ⟨v, hv, hindex, hbelow, hz, target_eq_join ladder_live hv hbelow hz⟩

end Build

end Folio

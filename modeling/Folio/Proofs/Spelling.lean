import Folio.Proofs.Turns

/-!
# However the path of a document is written

A search tells documents apart by their paths, and a path can be written in many ways: from the
directory of any other document, from the root, with dots, with steps upwards, with any number of
slashes. Reading a path passes over empty names and single dots, normalizing cancels the steps
upwards, and without links the kernel does the same on its way (`FileTree.resolve_location`). So
**whatever is written, the names of the path are those of the location**
(`Search.Pending.location`).

The names are not the whole path. A path that begins with exactly two slashes is kept apart from the
one with a single slash, though both lead to the same place. So **a file can be searched twice, and
get two targets** (`Search.twoSlashes_searched_twice`), but no more often, and only if a document is
included by a path with two slashes in front.

Main result: `Search.collect_tells_files_apart`.
-/

namespace Folio

open FileTree

/-! ## Paths of one file -/

/-- Both paths lead to the same file. -/
def FileTree.SameFile (t : FileTree) (p q : Path) : Prop :=
  ∃ loc content, t.resolve p = .ok (.entry loc) ∧ t.resolve q = .ok (.entry loc) ∧
    t.entryAt loc = some (.file content)

theorem FileTree.SameFile.names_eq {t : FileTree} {p q : Path} (ht : t.LinkFree) (hp : p.Normal)
    (hq : q.Normal) (h : t.SameFile p q) : p.names = q.names := by
  obtain ⟨loc, -, hloc, hloc', -⟩ := h
  have hp' : loc = p.location := resolve_eq_ok ht hp hloc
  have hq' : loc = q.location := resolve_eq_ok ht hq hloc'
  exact List.reverse_inj.1 (hp'.symm.trans hq')

/-- There are two ways to write the root. -/
theorem length_le_two {ps : List Path} (hnodup : ps.Nodup) {names : List Name}
    (h : ∀ p ∈ ps, p.isAbsolute = true ∧ p.names = names) : ps.length ≤ 2 := by
  have hsub : ps ⊆ [⟨.root, names⟩, ⟨.doubleRoot, names⟩] := by
    intro p hp
    obtain ⟨habs, rfl⟩ := h p hp
    obtain ⟨anchor, names⟩ := p
    cases anchor with
    | here => simp [Path.isAbsolute] at habs
    | root | doubleRoot => simp
  exact hnodup.length_le_of_subset hsub

/-- A reference begins where it says, or else where the document does. -/
theorem Document.refer_anchor (file : Path) (reference : Text) :
    (refer file reference).anchor =
      if (Path.ofText reference).isAbsolute then (Path.ofText reference).anchor
      else file.anchor := by
  rw [refer, Path.normalize, Path.join]
  split <;> rfl

namespace Search

variable {s : Search} {file target : Path} {m m' : Targets} {d : Directive}

/-- **Whatever is written in a directive**, if it leads to an entry, the document that it names has
the location of that entry. -/
theorem Pending.location (ht : s.tree.LinkFree) (hm : ∀ p ∈ m.keys, p.Normal) (hd : s.Pending m d)
    {loc : Location}
    (h : s.tree.resolve (d.file.parent.join (.ofText d.path)) = .ok (.entry loc)) :
    d.actual.location = loc := by
  obtain ⟨file, target, ds, hfile, hds, hmem⟩ := hd
  obtain ⟨rfl, -, hactual, -⟩ := mem_directives hds hmem
  have hnormal : d.file.Normal := hm d.file (mem_keys_of_get? hfile)
  have habs : (d.file.parent.join (.ofText d.path)).isAbsolute = true :=
    (Path.refer_normal hnormal.absolute d.path).absolute
  have hloc : loc = (Path.absolute s.tree.cwdPath (d.file.parent.join (.ofText d.path))).location :=
    resolve_location ht h
  rw [hactual, hloc, Path.absolute_of_isAbsolute _ habs]
  rfl

/-! ## The documents with targets -/

theorem inherits_normal_file : Inherits (fun _ => True) fun file _ => file.Normal :=
  fun _ _ _ path h _ => Path.refer_normal h.absolute path

theorem Grows.normal (h : s.Grows ((.empty : Targets).insert file target) m')
    (hfile : file.Normal) : ∀ p ∈ m'.keys, p.Normal := by
  intro p hp
  obtain ⟨there, hthere⟩ := Option.isSome_iff_exists.1 (OrderedMap.get?_isSome.2 hp)
  have hempty : Targets.All (fun file _ => file.Normal) .empty := fun p v hp => absurd hp (by simp)
  exact h.all inherits_normal_file (all_insert hempty hfile) (fun _ _ => trivial) p there hthere

/-- No document is promoted by a path with two slashes in front. -/
def SingleSlashes (s : Search) (m : Targets) : Prop :=
  ∀ d, s.Pending m d → d.promotes? s.tree = .ok true → (Path.ofText d.path).anchor ≠ .doubleRoot

/-- **Without such a path, all paths begin with one slash.** -/
theorem Grows.anchor_eq (h : s.Grows ((.empty : Targets).insert file target) m')
    (hroot : file.anchor = .root) (hsingle : s.SingleSlashes m') :
    ∀ p ∈ m'.keys, p.anchor = .root := by
  induction h with
  | refl =>
      intro p hp
      rw [keys_enter, List.mem_singleton] at hp
      rw [hp, hroot]
  | @step m' d _ hd hpromotes hnone ih =>
      have hold := ih fun d' hd' => hsingle d' (hd'.insert hnone)
      intro p hp
      rw [keys_insert_of_get?_eq_none hnone] at hp
      rcases List.mem_append.1 hp with hp | hp
      · exact hold p hp
      · obtain ⟨doc, there, ds, hdoc, hds, hmem⟩ := id hd
        obtain ⟨-, -, hactual, -⟩ := mem_directives hds hmem
        rw [List.mem_singleton.1 hp, hactual, Document.refer_anchor]
        split
        · next habs =>
            -- absolute, and not with two slashes
            have hne := hsingle d (hd.insert hnone) hpromotes
            cases hanchor : (Path.ofText d.path).anchor with
            | here => simp [Path.isAbsolute, hanchor] at habs
            | root => rfl
            | doubleRoot => exact absurd hanchor hne
        · exact hold doc (mem_keys_of_get? hdoc)

theorem singleSlashes_of_entries
    (h : ∀ e ∈ m.entries, ∀ d ∈ (s.directives e.1 e.2).toOption.getD [],
      (Path.ofText d.path).anchor ≠ .doubleRoot) : s.SingleSlashes m := by
  rintro d ⟨file, target, ds, hfile, hds, hmem⟩ -
  refine h (file, target) (OrderedMap.get?_eq_some_iff.1 hfile) d ?_
  rwa [hds]

/-! ## Files on disk -/

theorem entered_eq_keys (s : Search) (file target : Path) :
    (s.collect file target .empty).entered = (s.collect file target .empty).targets.keys :=
  (reads_collect s file target .empty).keys.symm

/-- **However the paths of documents are written**, from whichever document, a search without links
tells the files on disk apart. The documents that it reads are those with targets. If two of them
are one file, their paths have the same names, so none is read more than twice; and if no page is
made by a path with two slashes in front, they have the same path. -/
theorem collect_tells_files_apart (ht : s.tree.LinkFree) (hfile : file.Normal)
    (hroot : file.anchor = .root) :
    let f := s.collect file target .empty
    f.entered = f.targets.keys ∧ f.entered.Nodup ∧
      (∀ p ∈ f.targets.keys, ∀ q ∈ f.targets.keys, s.tree.SameFile p q → p.names = q.names) ∧
      (∀ loc (ps : List Path), ps.Sublist f.entered →
        (∀ p ∈ ps, s.tree.resolve p = .ok (.entry loc)) → ps.length ≤ 2) ∧
      (s.SingleSlashes f.targets →
        ∀ p ∈ f.targets.keys, ∀ q ∈ f.targets.keys, s.tree.SameFile p q → p = q) ∧
      ∀ d, s.Pending f.targets d → ∀ loc,
        s.tree.resolve (d.file.parent.join (.ofText d.path)) = .ok (.entry loc) →
          d.actual.location = loc := by
  intro f
  have hentered : f.entered = f.targets.keys := entered_eq_keys s file target
  have hnodup : f.entered.Nodup := hentered ▸ f.targets.nodup
  have hgrows : s.Grows ((.empty : Targets).insert file target) f.targets :=
    collect_grows (OrderedMap.get?_empty file)
  have hnormal := hgrows.normal hfile
  have hnames : ∀ p ∈ f.targets.keys, ∀ q ∈ f.targets.keys, s.tree.SameFile p q →
      p.names = q.names := fun p hp q hq => SameFile.names_eq ht (hnormal p hp) (hnormal q hq)
  refine ⟨hentered, hnodup, hnames, ?twice, ?once, fun d hd loc => hd.location ht hnormal⟩
  case twice =>
    intro loc ps hsub hps
    have hspelled : ∀ p ∈ ps, p.isAbsolute = true ∧ p.names = loc.reverse := by
      intro p hp
      have hp' : p.Normal := hnormal p (hentered ▸ hsub.subset hp)
      have hloc : loc = p.location := resolve_eq_ok ht hp' (hps p hp)
      exact ⟨hp'.absolute, by rw [hloc, Path.location, List.reverse_reverse]⟩
    exact length_le_two (hnodup.sublist hsub) hspelled
  case once =>
    intro hsingle p hp q hq hsame
    have hanchor := hgrows.anchor_eq hroot hsingle
    have hp' : p = ⟨.root, p.names⟩ := by rw [← hanchor p hp]
    have hq' : q = ⟨.root, q.names⟩ := by rw [← hanchor q hq]
    rw [hp', hq', hnames p hp q hq hsame]

/-- One document is included in five ways, and another one from below itself. -/
def maze : Search :=
  ⟨.ofFiles [("/s/a.adoc", "include::b.adoc[]\ninclude::./sub/.././b.adoc[]\n" ++
      "include::/s//sub/../b.adoc[]\ninclude::///s/./b.adoc[]\ninclude::sub/c.adoc[]\n"),
    ("/s/b.adoc", ""), ("/s/sub/c.adoc", "include::../b.adoc[]\ninclude::../../s/a.adoc[]\n")],
    .empty, "utf-8".toList⟩

/-- The document of the maze at which a search begins. -/
def mazeRoot : Path := .ofText "/s/a.adoc".toList

theorem maze_tells_files_apart :
    let f := maze.collect mazeRoot default .empty
    (maze.tree.LinkFree ∧ mazeRoot.Normal ∧ mazeRoot.anchor = .root) ∧
      (f.entered.map Path.toText =
          ["/s/a.adoc".toList, "/s/b.adoc".toList, "/s/sub/c.adoc".toList] ∧
        maze.SingleSlashes f.targets) ∧
      ∀ p ∈ f.targets.keys, ∀ q ∈ f.targets.keys, maze.tree.SameFile p q → p = q := by
  intro f
  have hfree : maze.tree.LinkFree := linkFree_of_entries (by decide +kernel)
  have hnormal : mazeRoot.Normal := ⟨by decide +kernel, by decide +kernel⟩
  have hroot : mazeRoot.anchor = .root := by decide +kernel
  have hentered : f.entered.map Path.toText =
      ["/s/a.adoc".toList, "/s/b.adoc".toList, "/s/sub/c.adoc".toList] := by decide +kernel
  have hsingle : maze.SingleSlashes f.targets := singleSlashes_of_entries (by decide +kernel)
  obtain ⟨-, -, -, -, honce, -⟩ := collect_tells_files_apart hfree hnormal hroot
  exact ⟨⟨hfree, hnormal, hroot⟩, ⟨hentered, hsingle⟩, honce hsingle⟩

/-- A document that includes itself by a path with two slashes in front. -/
def mirrored : Search :=
  ⟨.ofFiles [("/s/a.adoc", "include:://s/a.adoc[]\n")], .empty, "utf-8".toList⟩

/-- **A document is searched twice** and has two targets, if the path by which it includes itself
begins with two slashes. -/
theorem twoSlashes_searched_twice :
    let f := mirrored.collect mazeRoot default .empty
    mirrored.tree.LinkFree ∧ mazeRoot.Normal ∧ mazeRoot.anchor = .root ∧
      f.entered.map Path.toText = ["/s/a.adoc".toList, "//s/a.adoc".toList] ∧
      ¬ ∀ p ∈ f.targets.keys, ∀ q ∈ f.targets.keys, mirrored.tree.SameFile p q → p = q := by
  intro f
  have hfree : mirrored.tree.LinkFree := linkFree_of_entries (by decide +kernel)
  have hnormal : mazeRoot.Normal := ⟨by decide +kernel, by decide +kernel⟩
  have hentered : f.entered.map Path.toText = ["/s/a.adoc".toList, "//s/a.adoc".toList] := by
    decide +kernel
  refine ⟨hfree, hnormal, by decide +kernel, hentered, fun hone => ?_⟩
  have hsame : mirrored.tree.SameFile mazeRoot (.ofText "//s/a.adoc".toList) :=
    ⟨mazeRoot.location, _, by decide +kernel, by decide +kernel, by rfl⟩
  exact absurd (hone _ (by decide +kernel) _ (by decide +kernel) hsame) (by decide +kernel)

end Search

end Folio

import Folio.Proofs.Substitution

/-!
# Only documents that have a place among the copies are looked into

A build asks about many files: images, documents that are linked to, partials that stay in their
place, documents with a mark. **It does not matter what they hold**, only that they are there.

**Theorem (`Build.run_indifferent`).** Take two file trees with the same entries, where files may
hold different bytes (`FileTree.Alike`). Let them agree on the documents that the searches of the
first run give a place (`Build.mapped`). Then a build can be opened on both trees or on none, and
its two runs find the same, tell the same events, give the same pages or the same error and the same
list of copies. Each entry is the same in the end, unless it was different before and no run has
opened it.

Which documents are given a place depends on what has been read before, and a copy that one visit
has made may be a document of the next one. So the runs are followed side by side (`run_parallel`):
files differ only where they did so at the start and where no document stands.
-/

namespace Folio

open FileTree

def Entry.isFile : Entry → Bool
  | .file _ => true
  | _ => false

theorem Entry.any_isFile {e : Option Entry} (h : e.any isFile) :
    ∃ content, e = some (.file content) := by
  rcases e with - | content | - | target
  all_goals simp_all [isFile]

theorem Entry.Similar.refl {rel : List UInt8 → List UInt8 → Prop}
    (hrel : ∀ content, rel content content)
    (e : Option Entry) : Entry.Similar rel e e := by
  rcases e with - | content | - | target
  · exact .inl ⟨rfl, by simp⟩
  · exact .inr ⟨content, content, rfl, rfl, hrel content⟩
  · exact .inl ⟨rfl, by simp⟩
  · exact .inl ⟨rfl, by simp⟩

namespace FileTree

/-- The location of the entry at a path, if there is one. -/
def seat? (t : FileTree) (p : Path) : Option Location :=
  match t.resolve p with
  | .ok (.entry loc) => some loc
  | _ => none

theorem seat?_eq {t : FileTree} {p : Path} {loc : Location} (h : t.resolve p = .ok (.entry loc)) :
    t.seat? p = some loc := by
  rw [seat?, h]

/-- The same entries, but for the bytes of files. -/
abbrev Alike (t u : FileTree) : Prop := Resembles (fun _ _ _ => True) t u

/-- Trees with entries at the same locations are alike if each of them is the same or a file in
both. -/
theorem alike_of_keys {t u : FileTree} (hcwd : u.cwd = t.cwd)
    (hkeys : u.entries.keys = t.entries.keys)
    (h : ∀ loc ∈ t.entries.keys, u.entryAt loc = t.entryAt loc ∨
      (t.entryAt loc).any Entry.isFile ∧ (u.entryAt loc).any Entry.isFile) : Alike t u := by
  refine ⟨hcwd, fun loc => ?_⟩
  rcases entryAt_eq_of_keys hkeys h loc with hsame | ⟨hfile, hfile'⟩
  · exact hsame ▸ Entry.Similar.refl (fun _ => trivial) _
  · obtain ⟨content, hfile⟩ := Entry.any_isFile hfile
    obtain ⟨content', hfile'⟩ := Entry.any_isFile hfile'
    exact .inr ⟨content, content', hfile, hfile', trivial⟩

end FileTree

namespace Build

variable {b : Build} {t u : FileTree} {v : Visit} {loc : Location}

/-- **The locations of the documents that a run gives a place.** -/
def mapped (b : Build) (t : FileTree) : List Location :=
  (b.visits t).flatMap fun v => (b.found v).targets.keys.filterMap v.tree.seat?

theorem mem_mapped {file : Path} (hv : v ∈ b.visits t) (hfile : file ∈ (b.found v).targets.keys)
    (hres : v.tree.resolve file = .ok (.entry loc)) : loc ∈ b.mapped t :=
  List.mem_flatMap.2 ⟨v, hv, List.mem_filterMap.2 ⟨file, hfile, seat?_eq hres⟩⟩

/-- How the files at a location differ, from the start to the end: only where no document of the run
stands, and then they hold what they held before. -/
def Strays (b : Build) (t u : FileTree) (loc : Location) (content content' : List UInt8) : Prop :=
  content' = content ∨
    loc ∉ b.mapped t ∧ t.entryAt loc = some (.file content) ∧ u.entryAt loc = some (.file content')

theorem Strays.eq {content content' : List UInt8} (h : b.Strays t u loc content content')
    (hloc : loc ∈ b.mapped t) : content' = content :=
  h.resolve_right fun hnot => hnot.1 hloc

theorem resembles_of_alike (h : Alike t u)
    (hmapped : ∀ loc ∈ b.mapped t, u.entryAt loc = t.entryAt loc) :
    Resembles (b.Strays t u) t u := by
  refine ⟨h.cwd, fun loc => (h.entry loc).imp_right ?_⟩
  rintro ⟨content, content', hfile, hfile', -⟩
  refine ⟨content, content', hfile, hfile', ?_⟩
  by_cases hloc : loc ∈ b.mapped t
  · have hsame : content' = content := by simpa [hfile, hfile'] using hmapped loc hloc
    exact .inl hsame
  · exact .inr ⟨hloc, hfile, hfile'⟩

/-- A document that has been read in the search is at the same location in later trees. -/
theorem resolve_of_found {file : Path} (hfound : (b.found v).result.isOk)
    (hfile : file ∈ (b.found v).targets.keys) :
    ∃ loc, v.tree.resolve file = .ok (.entry loc) := by
  obtain ⟨page, hpage⟩ := Search.exists_ok_of_isOk hfound
  obtain ⟨qs, hpromotions, -⟩ := Search.collect_promotions hpage hfile
  obtain ⟨ls, hls, -⟩ := exists_of_map_eq_ok hpromotions
  obtain ⟨loc, hres, -⟩ := Document.source?_of_read hls
  exact ⟨loc, hres⟩

/-- **Every visit prepares its documents alike**, since they hold the same. -/
theorem preparesAlike_strays (hv : v ∈ b.visits t) :
    b.PreparesAlike b.attributes (b.Strays t u) v := by
  refine ⟨fun file hfile w h => ?_, fun hfound file hfile t' w hkeeps h => ?_⟩
  · refine Document.prepared_eq h fun _ loc content content' hres _ hstrays => ?_
    rw [hstrays.eq (mem_mapped hv hfile hres)]
  · obtain ⟨loc, hres⟩ := resolve_of_found hfound hfile
    refine Document.prepared_eq h fun _ loc' content content' hres' _ hstrays => ?_
    obtain rfl : loc = loc' := by simpa [hkeeps.resolve hres] using hres'
    rw [hstrays.eq (mem_mapped hv hfile hres)]

/-- **Only the documents that have a place among the copies are looked into.** On two trees that
agree on them and have the same entries everywhere, a build does the same. What it leaves is the
same too, but for files that were different before and that it has not opened. -/
theorem run_indifferent (h : Alike t u)
    (hmapped : ∀ loc ∈ b.mapped t, u.entryAt loc = t.entryAt loc) :
    (∀ source workingDir attributes encoding,
        open? u source workingDir attributes encoding =
          open? t source workingDir attributes encoding) ∧
      (b.visits u).map b.found = (b.visits t).map b.found ∧
      (b.run u).events = (b.run t).events ∧ (b.run u).written = (b.run t).written ∧
      (b.run u).result = (b.run t).result ∧
      ∀ loc, (b.run u).tree.entryAt loc = (b.run t).tree.entryAt loc ∨
        loc ∉ b.opens t ∧ (b.run t).tree.entryAt loc = t.entryAt loc ∧
          (b.run u).tree.entryAt loc = u.entryAt loc := by
  obtain ⟨hfounds, hevents, hwritten, hresult, htree⟩ :=
    run_parallel b.attributes (resembles_of_alike h hmapped) (fun v hv => preparesAlike_strays hv)
      fun loc _ content => .inl rfl
  refine ⟨fun source workingDir attributes encoding => ?_, hfounds, hevents, hwritten, hresult,
    fun loc => ?_⟩
  · rw [open?_resembles h source workingDir attributes attributes encoding]
    cases hopen : open? t source workingDir attributes encoding with
    | error e => rfl
    | ok b' =>
        rw [open?_eq_ok hopen]
        rfl
  · rcases htree.entry loc with ⟨hsame, -⟩ | ⟨content, content', hfile, hfile', hstrays, hopens⟩
    · exact .inl hsame
    · by_cases hloc : loc ∈ b.opens t
      · exact .inl ((hopens hloc ▸ hfile').trans hfile.symm)
      · rcases hstrays with rfl | ⟨-, hstart, hstart'⟩
        · exact .inl (hfile'.trans hfile.symm)
        · exact .inr ⟨hloc, hfile.trans hstart.symm, hfile'.trans hstart'.symm⟩

/-- A document with a page below it, and with this text in a partial, in a document with a mark and
in a picture. -/
def asideTree (text : String) : FileTree :=
  .ofFiles [("/docs/index.adoc",
      "include::page.adoc[]\ninclude::_part.adoc[]\nimage::logo.png[]\n"),
    ("/docs/page.adoc", "include::note.adoc[confluence=include]\nlink:note.adoc[N]\n"),
    ("/docs/_part.adoc", text), ("/docs/note.adoc", text), ("/docs/logo.png", text)]

/-- A build of these documents below `/work`. -/
def aside : Build :=
  ⟨Path.absolute (asideTree "").cwdPath (.ofText "/docs/index.adoc".toList),
    Path.absolute (asideTree "").cwdPath (.ofText "/work".toList), .empty, "utf-8".toList, [], none⟩

theorem aside_run_indifferent :
    let t := asideTree "one"
    let u := asideTree "include::x.adoc[]"
    (Alike t u ∧ ∀ loc ∈ aside.mapped t, u.entryAt loc = t.entryAt loc) ∧
    ((∀ source workingDir attributes encoding,
        open? u source workingDir attributes encoding =
          open? t source workingDir attributes encoding) ∧
      (aside.visits u).map aside.found = (aside.visits t).map aside.found ∧
      (aside.run u).events = (aside.run t).events ∧ (aside.run u).written = (aside.run t).written ∧
      (aside.run u).result = (aside.run t).result ∧
      ∀ loc, (aside.run u).tree.entryAt loc = (aside.run t).tree.entryAt loc ∨
        loc ∉ aside.opens t ∧ (aside.run t).tree.entryAt loc = t.entryAt loc ∧
          (aside.run u).tree.entryAt loc = u.entryAt loc) ∧
    (aside.run t).result.isOk ∧ (aside.run t).written.length = 2 := by
  intro t u
  have halike : Alike t u :=
    alike_of_keys (by decide +kernel) (by decide +kernel) (by decide +kernel)
  have hmapped : ∀ loc ∈ aside.mapped t, u.entryAt loc = t.entryAt loc := by decide +kernel
  have hdone : (aside.run t).result.isOk ∧ (aside.run t).written.length = 2 := by decide +kernel
  exact ⟨⟨halike, hmapped⟩, run_indifferent halike hmapped, hdone⟩

end Build

end Folio

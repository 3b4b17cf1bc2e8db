import Folio.Proofs.Parallel
import Folio.Proofs.Rerun

/-!
# Attributes are substituted before anything else

A build may be given attributes, or documents in which they are substituted already. **It makes no
difference.**

**Theorem (`Build.run_substituted`).** Let a run write no document that it also reads. Take a file
tree that differs in the documents which the run reads, and there in having their lines with the
attributes substituted in them (`Build.Rendered`). A build without attributes does the same on this
tree: the same findings, events and copies, the same pages or the same error, and the same bytes in
every file that has been written.

Both steps of a visit read the documents, and each substitutes attributes on its own. So the two
runs are followed side by side (`run_parallel`). What a document is in the second step has not
changed since the first one, since nothing is written where something is read.
-/

namespace Folio

open FileTree

/-- Trees with entries at the same locations need not be compared anywhere else. -/
theorem FileTree.entryAt_eq_of_keys {t u : FileTree} {P : Location → Prop}
    (hkeys : u.entries.keys = t.entries.keys)
    (h : ∀ loc ∈ t.entries.keys, u.entryAt loc = t.entryAt loc ∨ P loc) (loc : Location) :
    u.entryAt loc = t.entryAt loc ∨ P loc := by
  cases loc with
  | nil => exact .inl rfl
  | cons n loc =>
      by_cases hmem : n :: loc ∈ t.entries.keys
      · exact h _ hmem
      · have hmem' : n :: loc ∉ u.entries.keys := hkeys ▸ hmem
        rw [← OrderedMap.get?_isSome, Option.not_isSome_iff_eq_none] at hmem hmem'
        exact .inl (by rw [entryAt_cons, entryAt_cons, hmem, hmem'])

namespace Document

/-- The location of the document at a path, if there is one that can be read. -/
def source? (t : FileTree) (encoding : Text) (p : Path) : Option Location :=
  match t.resolve p, read t p encoding with
  | .ok (.entry loc), .ok _ => some loc
  | _, _ => none

variable {t : FileTree} {encoding : Text} {p : Path}

theorem source?_of_read {ls : List Text} (h : read t p encoding = .ok ls) :
    ∃ loc, t.resolve p = .ok (.entry loc) ∧ source? t encoding p = some loc := by
  obtain ⟨content, hstatus⟩ := exists_status?_of_read h
  obtain ⟨loc, hres, -⟩ := status?_eq_some_iff.1 hstatus
  exact ⟨loc, hres, by rw [source?, hres, h]⟩

end Document

namespace Build

variable {b : Build} {t u : FileTree} {v : Visit} {loc : Location}

/-- **The locations of the documents that a run reads.** -/
def reads (b : Build) (t : FileTree) : List Location :=
  (b.visits t).flatMap fun v =>
    (b.found v).targets.keys.filterMap (Document.source? v.tree b.encoding)

/-- The bytes have the lines of a document with the attributes substituted in them. -/
def Renders (b : Build) (content content' : List UInt8) : Prop :=
  ∃ ls, Document.lines? b.encoding content = some ls ∧
    Document.lines? b.encoding content' = some (ls.map b.attributes.substitute)

/-- The second tree is the first one with the attributes of the build substituted in the documents
that its run reads. -/
structure Rendered (b : Build) (t u : FileTree) : Prop where
  cwd : u.cwd = t.cwd
  same : ∀ loc ∉ b.reads t, u.entryAt loc = t.entryAt loc
  read : ∀ loc ∈ b.reads t, ∃ content content', t.entryAt loc = some (.file content) ∧
    u.entryAt loc = some (.file content') ∧ b.Renders content content'

/-- How the files at a location differ. -/
def DiffersAt (b : Build) (t : FileTree) (loc : Location) (content content' : List UInt8) : Prop :=
  if loc ∈ b.reads t then b.Renders content content' else content' = content

theorem Rendered.resembles (h : b.Rendered t u) : Resembles (b.DiffersAt t) t u := by
  refine ⟨h.cwd, fun loc => ?_⟩
  by_cases hread : loc ∈ b.reads t
  · obtain ⟨content, content', hfile, hfile', hrenders⟩ := h.read loc hread
    exact .inr ⟨content, content', hfile, hfile', by rwa [DiffersAt, if_pos hread]⟩
  · have hsame := h.same loc hread
    by_cases hfile : ∃ content, t.entryAt loc = some (.file content)
    · obtain ⟨content, hfile⟩ := hfile
      exact .inr ⟨content, content, hfile, hsame.trans hfile, by rw [DiffersAt, if_neg hread]⟩
    · exact .inl ⟨hsame, fun content hcontent => hfile ⟨content, hcontent⟩⟩

/-- Without attributes, the lines of a rendered document are those that the build works on. -/
theorem Renders.lines?_eq {content content' : List UInt8} (h : b.Renders content content') :
    (Document.lines? b.encoding content').map (·.map (Attributes.substitute .empty)) =
      (Document.lines? b.encoding content).map (·.map b.attributes.substitute) := by
  obtain ⟨ls, hls, hls'⟩ := h
  have hempty : Attributes.substitute .empty = id := funext fun _ => rfl
  rw [hls, hls', hempty, Option.map_some, Option.map_some, List.map_id]

/-- **Every visit prepares its documents alike**: one that can be read is rendered, and one that
cannot be read is the same. -/
theorem preparesAlike (hv : v ∈ b.visits t) : b.PreparesAlike .empty (b.DiffersAt t) v := by
  have hmem : ∀ file ∈ (b.found v).targets.keys, ∀ ls,
      Document.read v.tree file b.encoding = .ok ls →
      ∃ loc ∈ b.reads t, v.tree.resolve file = .ok (.entry loc) := by
    intro file hfile ls hread
    obtain ⟨loc, hres, hsource⟩ := Document.source?_of_read hread
    exact ⟨loc, List.mem_flatMap.2 ⟨v, hv, List.mem_filterMap.2 ⟨file, hfile, hsource⟩⟩, hres⟩
  refine ⟨fun file hfile u h => ?_, fun hfound file hfile t' u hkeeps h => ?_⟩
  · refine Document.prepared_eq h fun hnull loc content content' hres hcontent hdiffers => ?_
    rw [DiffersAt] at hdiffers
    split at hdiffers
    · exact hdiffers.lines?_eq
    · next hnot =>
        rw [hdiffers]
        cases hls : Document.lines? b.encoding content with
        | none => rfl
        | some ls =>
            obtain ⟨loc', hread, hres'⟩ := hmem file hfile ls
              (Document.read_eq_ok_iff.2 ⟨hnull, content, hcontent, hls⟩)
            obtain rfl : loc = loc' := by simpa [hres] using hres'
            exact absurd hread hnot
  · obtain ⟨page, hpage⟩ := Search.exists_ok_of_isOk hfound
    obtain ⟨qs, hpromotions, -⟩ := Search.collect_promotions hpage hfile
    obtain ⟨ls, hls, -⟩ := exists_of_map_eq_ok hpromotions
    obtain ⟨loc, hread, hres⟩ := hmem file hfile ls hls
    refine Document.prepared_eq h fun _ loc' content content' hres' _ hdiffers => ?_
    obtain rfl : loc = loc' := by simpa [hkeeps.resolve hres] using hres'
    rw [DiffersAt, if_pos hread] at hdiffers
    exact hdiffers.lines?_eq

/-- **Attributes are substituted before anything else.** If a run opens no document for writing that
it reads, a build without attributes does the same on the tree in which they are substituted
already. It can be opened if the other one can, finds the same, and ends in the same way, and the
trees that the two leave are the same but for the documents. -/
theorem run_substituted (h : b.Rendered t u) (hapart : ∀ loc ∈ b.opens t, loc ∉ b.reads t) :
    let plain := b.withAttributes .empty
    (∀ source workingDir encoding, open? u source workingDir .empty encoding =
        (open? t source workingDir b.attributes encoding).map (·.withAttributes .empty)) ∧
      (plain.visits u).map plain.found = (b.visits t).map b.found ∧
      (plain.run u).events = (b.run t).events ∧ (plain.run u).written = (b.run t).written ∧
      (plain.run u).result = (b.run t).result ∧
      ∀ loc ∉ b.reads t, (plain.run u).tree.entryAt loc = (b.run t).tree.entryAt loc := by
  intro plain
  have hresembles := h.resembles
  obtain ⟨hfounds, hevents, hwritten, hresult, htree⟩ :=
    run_parallel .empty hresembles (fun v hv => preparesAlike hv)
      fun loc hloc content => by rw [DiffersAt, if_neg (hapart loc hloc)]
  refine ⟨fun source workingDir encoding => open?_resembles hresembles source workingDir _ _ _,
    hfounds, hevents, hwritten, hresult, fun loc hnot => ?_⟩
  rcases htree.entry loc with ⟨heq, -⟩ | ⟨content, content', hfile, hfile', hdiffers, -⟩
  · exact heq
  · rw [DiffersAt, if_neg hnot] at hdiffers
    rw [hfile, hfile', hdiffers]

/-- Two documents with a placeholder in a reference. -/
def placeholderTree : FileTree :=
  .ofFiles [("/docs/index.adoc", "include::{x}.adoc[]\n"), ("/docs/page.adoc", "link:{x}.png[P]\n"),
    ("/docs/page.png", "p")]

/-- The same documents with the text in place of the placeholder. -/
def renderedTree : FileTree :=
  .ofFiles [("/docs/index.adoc", "include::page.adoc[]\n"), ("/docs/page.adoc", "link:page.png[P]\n"),
    ("/docs/page.png", "p")]

/-- A build of these documents below `/work`, with the text for the placeholder. -/
def placeholders : Build :=
  ⟨Path.absolute placeholderTree.cwdPath (.ofText "/docs/index.adoc".toList),
    Path.absolute placeholderTree.cwdPath (.ofText "/work".toList),
    OrderedMap.ofList [("x".toList, "page".toList)], "utf-8".toList, [], none⟩

/-- The bytes of a text of characters below 256. -/
def bytesOf (text : String) : List UInt8 := text.toList.map fun c => UInt8.ofNat c.toNat

theorem placeholders_rendered : placeholders.Rendered placeholderTree renderedTree := by
  have hkeys : renderedTree.entries.keys = placeholderTree.entries.keys ∧
      ∀ loc ∈ placeholderTree.entries.keys, renderedTree.entryAt loc = placeholderTree.entryAt loc ∨
        loc ∈ placeholders.reads placeholderTree := by
    decide +kernel
  have hreads : placeholders.reads placeholderTree =
      [(Path.ofText "/docs/index.adoc".toList).location,
        (Path.ofText "/docs/page.adoc".toList).location] := by
    decide +kernel
  refine ⟨by decide +kernel,
    fun loc hnot => (entryAt_eq_of_keys hkeys.1 hkeys.2 loc).resolve_right hnot, ?_⟩
  rw [hreads, List.forall_mem_cons, List.forall_mem_singleton]
  exact ⟨⟨bytesOf "include::{x}.adoc[]\n", bytesOf "include::page.adoc[]\n", by decide +kernel,
      by decide +kernel, ["include::{x}.adoc[]".toList], by decide +kernel, by decide +kernel⟩,
    ⟨bytesOf "link:{x}.png[P]\n", bytesOf "link:page.png[P]\n", by decide +kernel,
      by decide +kernel, ["link:{x}.png[P]".toList], by decide +kernel, by decide +kernel⟩⟩

theorem placeholders_run_substituted :
    let plain := placeholders.withAttributes .empty
    (placeholders.Rendered placeholderTree renderedTree ∧
      ∀ loc ∈ placeholders.opens placeholderTree, loc ∉ placeholders.reads placeholderTree) ∧
    (∀ source workingDir encoding, open? renderedTree source workingDir .empty encoding =
        (open? placeholderTree source workingDir placeholders.attributes encoding).map
          (·.withAttributes .empty)) ∧
      (plain.visits renderedTree).map plain.found =
        (placeholders.visits placeholderTree).map placeholders.found ∧
      (plain.run renderedTree).events = (placeholders.run placeholderTree).events ∧
      (plain.run renderedTree).written = (placeholders.run placeholderTree).written ∧
      (plain.run renderedTree).result = (placeholders.run placeholderTree).result ∧
      ∀ loc ∉ placeholders.reads placeholderTree,
        (plain.run renderedTree).tree.entryAt loc =
          (placeholders.run placeholderTree).tree.entryAt loc := by
  intro plain
  have hapart : ∀ loc ∈ placeholders.opens placeholderTree,
      loc ∉ placeholders.reads placeholderTree := by
    decide +kernel
  exact ⟨⟨placeholders_rendered, hapart⟩, run_substituted placeholders_rendered hapart⟩

end Build

end Folio

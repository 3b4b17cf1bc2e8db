import Folio.Proofs.Ending
import Folio.Proofs.Passages

/-!
# What is checked and what is used

Opening a build checks the source and the working directory as they are given. The build then goes
by their normal forms, which may lead elsewhere (`misled_unchecked`):

* a `..` behind a link leads to the directory above that to which the link leads, but takes the link
  back when the path is normalized, so another directory may be used than has been checked;
* a `..` behind a name at which nothing stands leads nowhere, so a working directory passes for
  missing of which the normal form may be a file.

**There is nothing else**, but for paths that the system refuses. A source that takes no
link back is the one that has been checked. A working directory that takes no link back, and only
directories if nothing stands there, is missing or a directory.

Main result: `Build.opened_checked`.
-/

namespace Folio

open FileTree

namespace FileTree

variable {t : FileTree} {p : Path}

/-- No `..` of the path takes back a link. -/
def TakesNoLink (t : FileTree) (p : Path) : Prop :=
  ∀ x ∈ Path.takenBack (t.namesOf p), ∀ target, t.lookup? x.1 x.2 ≠ some (.link target)

/-- Every `..` of the path takes back a directory. -/
def TakesDirectories (t : FileTree) (p : Path) : Prop :=
  ∀ x ∈ Path.takenBack (t.namesOf p), t.lookup? x.1 x.2 = some .directory

instance (t : FileTree) (p : Path) : Decidable (t.TakesDirectories p) :=
  inferInstanceAs (Decidable (∀ x ∈ Path.takenBack (t.namesOf p), t.lookup? x.1 x.2 = some .directory))

theorem TakesDirectories.takesNoLink (h : t.TakesDirectories p) : t.TakesNoLink p := by
  intro x hx target
  rw [h x hx]
  simp

/-- **The normal form of a path to an entry** leads to the same one, if it takes no link back. -/
theorem resolve_absolute_of_status? {e : Entry} (h : t.status? p = .ok (some e))
    (hlinks : t.TakesNoLink p) (hnormal : refusal? (Path.absolute t.cwdPath p) = none) :
    t.resolve (Path.absolute t.cwdPath p) = t.resolve p := by
  obtain ⟨loc, hres, -⟩ := status?_eq_some_iff.1 h
  exact resolve_absolute (refusal?_of_status? h) hnormal (takenBack_of_resolve hres hlinks)

end FileTree

/-- The normal form of the path of a document has the same name. -/
theorem Document.isPageName_absolute {p : Path} (h : isPageName p = true) (base : Path) :
    isPageName (Path.absolute base p) = true := by
  cases hlast : p.names.getLast? with
  | none =>
      rw [isPageName, Path.baseName, hlast] at h
      exact absurd h (by decide)
  | some n =>
      have hup : n ≠ .up := by
        rintro rfl
        rw [isPageName, Path.baseName, hlast] at h
        exact absurd h (by decide)
      obtain ⟨names, hnames⟩ := List.getLast?_eq_some_iff.1 hlast
      obtain ⟨front, hfront⟩ : ∃ front, (base.join p).names = front ++ [n] := by
        rw [Path.join]
        split
        · exact ⟨names, hnames⟩
        · exact ⟨base.names ++ names, by rw [hnames, List.append_assoc]⟩
      have hend : (Path.absolute base p).names.getLast? = p.names.getLast? := by
        rw [hlast, Path.absolute, Path.normalize, hfront, List.foldl_append, List.foldl_cons,
          List.foldl_nil, Path.push_of_ne_up hup, List.reverse_cons, List.getLast?_concat]
      rwa [isPageName, Path.baseName, hend]

namespace Build

variable {t : FileTree} {source workingDir : Path} {attributes : Attributes} {encoding : Text}
  {b : Build}

/-- **What has been checked is what is used.** The source leads where the given one leads, to a
directory or to a document, if no link is taken back. The working directory is missing or a
directory, if no link is taken back, and nothing but directories when the given one is missing. -/
theorem opened_checked (h : open? t source workingDir attributes encoding = .ok b) :
    (t.TakesNoLink source → refusal? b.source = none →
      t.resolve b.source = t.resolve source ∧ ∃ e, t.status? b.source = .ok (some e) ∧
        (e = .directory ∨ Document.isPageName b.source = true)) ∧
    (t.TakesNoLink workingDir → (t.status? workingDir = .ok none → t.TakesDirectories workingDir) →
      refusal? workingDir = none → refusal? b.workingDir = none →
      t.resolve b.workingDir = t.resolve workingDir ∧
        (t.status? b.workingDir = .ok none ∨ t.status? b.workingDir = .ok (some .directory))) := by
  obtain ⟨_, hsource, hrest⟩ := exists_of_bind_eq_ok h
  obtain ⟨_, hworking, -⟩ := exists_of_bind_eq_ok hrest
  obtain rfl := open?_eq_ok h
  constructor
  · intro hlinks hnormal
    obtain ⟨e, hstatus, hfit⟩ := checkSource_eq_ok_iff.1 hsource
    have hsame := resolve_absolute_of_status? hstatus hlinks hnormal
    refine ⟨hsame, e, ?_, hfit.imp_right fun hname => Document.isPageName_absolute hname _⟩
    rw [FileTree.status?, hsame]
    exact hstatus
  · intro hlinks hmissing hp hnormal
    have hfit := checkWorkingDir_eq_ok_iff.1 hworking
    have hsame : t.resolve (Path.absolute t.cwdPath workingDir) = t.resolve workingDir := by
      rcases hfit with hnone | hdir
      · exact resolve_absolute hp hnormal (hmissing hnone)
      · exact resolve_absolute_of_status? hdir hlinks hnormal
    have hstatus : t.status? (Path.absolute t.cwdPath workingDir) = t.status? workingDir := by
      rw [FileTree.status?, hsame]
      rfl
    refine ⟨hsame, ?_⟩
    rw [hstatus]
    exact hfit

/-- Two directories of documents, a link from beside one of them to beside the other, and a file. -/
def misledTree : FileTree :=
  (putEntries [(.ofText "/a/docs/y.adoc".toList, .file []),
    (.ofText "/b/docs/x.adoc".toList, .file []), (.ofText "/b/sub".toList, .directory),
    (.ofText "/a/l".toList, .link "../b/sub".toList), (.ofText "/in".toList, .link "b".toList),
    (.ofText "/notes.txt".toList, .file [])] (empty [])).1

/-- The source leads through a link, which is not taken back. -/
theorem led_opened_checked :
    let source : Path := .ofText "/in/sub/../docs".toList
    let workingDir : Path := .ofText "/b/sub/../../work".toList
    let b : Build := ⟨Path.absolute misledTree.cwdPath source,
      Path.absolute misledTree.cwdPath workingDir, .empty, "utf-8".toList, [], none⟩
    (open? misledTree source workingDir .empty "utf-8".toList = .ok b ∧
      misledTree.TakesNoLink source ∧ refusal? b.source = none ∧
      misledTree.TakesDirectories workingDir ∧ refusal? workingDir = none ∧
      refusal? b.workingDir = none) ∧
    misledTree.resolve b.source = misledTree.resolve source ∧
    misledTree.status? b.source = .ok (some .directory) ∧
    misledTree.resolve b.workingDir = misledTree.resolve workingDir := by
  intro source workingDir b
  have hopen : open? misledTree source workingDir .empty "utf-8".toList = .ok b :=
    open?_of_isOk (by decide +kernel)
  have hsource : misledTree.TakesDirectories source := by decide +kernel
  have hworking : misledTree.TakesDirectories workingDir := by decide +kernel
  have hrefused : refusal? b.source = none ∧ refusal? workingDir = none ∧
      refusal? b.workingDir = none := by
    decide +kernel
  obtain ⟨hsame, -⟩ := (opened_checked hopen).1 hsource.takesNoLink hrefused.1
  obtain ⟨hsame', -⟩ := (opened_checked hopen).2 hworking.takesNoLink (fun _ => hworking) hrefused.2.1
    hrefused.2.2
  exact ⟨⟨hopen, hsource.takesNoLink, hrefused.1, hworking, hrefused.2⟩, hsame, by decide +kernel,
    hsame'⟩

/-- **A file passes for a missing working directory**, and one directory is checked while another
one is used. -/
theorem misled_unchecked :
    (∃ b, open? misledTree (.ofText "/a/docs".toList) (.ofText "/missing/../notes.txt".toList) .empty
        "utf-8".toList = .ok b ∧
      misledTree.status? b.workingDir = .ok (some (.file []))) ∧
    ∃ b, open? misledTree (.ofText "/a/l/../docs".toList) (.ofText "/work".toList) .empty
        "utf-8".toList = .ok b ∧
      misledTree.resolve (.ofText "/a/l/../docs".toList) =
        .ok (.entry (Path.ofText "/b/docs".toList).location) ∧
      misledTree.resolve b.source = .ok (.entry (Path.ofText "/a/docs".toList).location) :=
  ⟨⟨_, open?_of_isOk (by decide +kernel), by decide +kernel⟩,
    ⟨_, open?_of_isOk (by decide +kernel), by decide +kernel, by decide +kernel⟩⟩

end Build

end Folio

import Folio.Proofs.Growth
import Folio.Proofs.Places

/-!
# The visits of a run

A run comes to the documents at the source one after another. At each of them it finds the file
tree and the list of copies that the documents before have left, searches the document, and makes
the copies. What is known at that moment is a `Visit`, and **`Build.visits` lists the visits of a
run** up to the first one that fails.

A run that does not fail is a chain of visits (`Build.Runs`): each one ends with a page and its
copies, and hands its file tree and its list to the next.

Main results: `run_runs`, and `Runs.split`, which cuts the chain at any visit.
-/

namespace Folio

open FileTree

/-- A run comes to a document at the source, with the file tree that it finds and the copies made so
far. -/
structure Visit where
  tree : FileTree
  written : List Path
  file : Path
  target : Path

namespace Build

/-- How a build makes its copies. -/
def copying (b : Build) : Copying := ⟨b.attributes, b.encoding, Reference.all⟩

def search (b : Build) (v : Visit) : Search := ⟨v.tree, b.attributes, b.encoding⟩

/-- What the search of a visit finds. -/
def found (b : Build) (v : Visit) : Finding := (b.search v).collect v.file v.target .empty

/-- The making of the copies of a visit. -/
def copies (b : Build) (v : Visit) : Outcome (List Path) :=
  Relink.copyAll b.copying (b.found v).targets v.written v.tree

/-- The visits to some documents, up to the first one that fails. -/
def visitAll (b : Build) : List (Path × Path) → FileTree → List Path → List Visit
  | [], _, _ => []
  | (file, target) :: rest, t, written =>
      let p := makePage b t written file target
      ⟨t, written, file, target⟩ ::
        match p.result with
        | .error _ => []
        | .ok _ => visitAll b rest p.tree p.written

def visits (b : Build) (t : FileTree) : List Visit :=
  match b.pages, (b.topLevel t).2 with
  | none, .ok docs => visitAll b docs t b.written
  | _, _ => []

theorem mem_of_mem_visitAll {b : Build} {docs : List (Path × Path)} {t : FileTree}
    {written : List Path} {v : Visit} (hv : v ∈ b.visitAll docs t written) :
    (v.file, v.target) ∈ docs := by
  induction docs generalizing t written with
  | nil => simp [visitAll] at hv
  | cons e docs ih =>
      rw [visitAll] at hv
      rcases List.mem_cons.1 hv with rfl | hv
      · exact List.mem_cons_self
      · split at hv
        · simp at hv
        · exact List.mem_cons_of_mem _ (ih hv)

/-- A visit is a visit to a document at the source. -/
theorem exists_topLevel_of_mem_visits {b : Build} {t : FileTree} {v : Visit}
    (hv : v ∈ b.visits t) :
    ∃ es docs, b.topLevel t = (es, .ok docs) ∧ (v.file, v.target) ∈ docs := by
  rw [visits] at hv
  split at hv
  · next docs _ hdocs => exact ⟨_, docs, Prod.ext rfl hdocs, mem_of_mem_visitAll hv⟩
  · simp at hv

/-! ## Runs that do not fail -/

/-- From this file tree and these copies, the visits lead to that file tree and those copies, and
none of them fails. -/
inductive Runs (b : Build) : FileTree → List Path → List Visit → FileTree → List Path → Prop
  | nil {t : FileTree} {written : List Path} : Runs b t written [] t written
  | cons {v : Visit} {vs : List Visit} {page : Page} {new : List Path} {t : FileTree}
      {written : List Path} :
      (b.found v).result = .ok page → (b.copies v).result = .ok new →
      Runs b (b.copies v).tree (v.written ++ new) vs t written →
      Runs b v.tree v.written (v :: vs) t written

theorem makePage_eq (b : Build) (v : Visit) :
    b.makePage v.tree v.written v.file v.target =
      match (b.found v).result with
      | .error e => ⟨v.tree, (b.found v).events, v.written, .error e⟩
      | .ok page =>
          match (b.copies v).result with
          | .error e =>
              ⟨(b.copies v).tree, (b.found v).events ++ (b.copies v).events, v.written, .error e⟩
          | .ok new =>
              ⟨(b.copies v).tree, (b.found v).events ++ (b.copies v).events, v.written ++ new,
                .ok [page]⟩ := rfl

theorem makePage_of_ok {b : Build} {v : Visit} {page : Page} {new : List Path}
    (hfound : (b.found v).result = .ok page) (hcopies : (b.copies v).result = .ok new) :
    b.makePage v.tree v.written v.file v.target =
      ⟨(b.copies v).tree, (b.found v).events ++ (b.copies v).events, v.written ++ new,
        .ok [page]⟩ := by
  rw [makePage_eq, hfound]
  simp only [hcopies]

theorem makePage_eq_ok {b : Build} {v : Visit} {pages : List Page}
    (h : (b.makePage v.tree v.written v.file v.target).result = .ok pages) :
    ∃ page new, (b.found v).result = .ok page ∧ (b.copies v).result = .ok new ∧ pages = [page] := by
  rw [makePage_eq] at h
  cases hfound : (b.found v).result with
  | error e =>
      rw [hfound] at h
      exact absurd h (by simp)
  | ok page =>
      rw [hfound] at h
      cases hcopies : (b.copies v).result with
      | error e =>
          rw [hcopies] at h
          exact absurd h (by simp)
      | ok new =>
          rw [hcopies] at h
          exact ⟨page, new, rfl, rfl, (Except.ok.inj h).symm⟩

theorem makePages_cons_of_ok {b : Build} {t u : FileTree} {file target : Path}
    (docs : List (Path × Path)) {written written' : List Path} {es : List Event} {pages : List Page}
    (hpage : b.makePage t written file target = ⟨u, es, written', .ok pages⟩) :
    b.makePages ((file, target) :: docs) t written =
        ⟨(b.makePages docs u written').tree, es ++ (b.makePages docs u written').events,
          (b.makePages docs u written').written,
          (b.makePages docs u written').result.map (pages ++ ·)⟩ ∧
      b.visitAll ((file, target) :: docs) t written =
        ⟨t, written, file, target⟩ :: b.visitAll docs u written' := by
  rw [makePages, visitAll, hpage]
  exact ⟨rfl, rfl⟩

/-- Pages have been made: the first visit has found its page and made its copies, and the other
pages are made from what it leaves. -/
theorem makePages_cons_eq_ok {b : Build} {v : Visit} {docs : List (Path × Path)} {pages : List Page}
    (h : (b.makePages ((v.file, v.target) :: docs) v.tree v.written).result = .ok pages) :
    ∃ page new rest, (b.found v).result = .ok page ∧ (b.copies v).result = .ok new ∧
      (b.makePages docs (b.copies v).tree (v.written ++ new)).result = .ok rest ∧
      pages = page :: rest := by
  cases hpage : (b.makePage v.tree v.written v.file v.target).result with
  | error e =>
      rw [makePages] at h
      simp only [hpage] at h
      exact absurd h (by simp)
  | ok first =>
      obtain ⟨page, new, hfound, hcopies, -⟩ := makePage_eq_ok hpage
      rw [(makePages_cons_of_ok docs (makePage_of_ok hfound hcopies)).1] at h
      obtain ⟨rest, hrest, rfl⟩ := exists_of_map_eq_ok h
      exact ⟨page, new, rest, hfound, hcopies, hrest, rfl⟩

theorem makePages_runs {b : Build} {docs : List (Path × Path)} {t : FileTree}
    {written : List Path} {pages : List Page}
    (h : (b.makePages docs t written).result = .ok pages) :
    b.Runs t written (b.visitAll docs t written) (b.makePages docs t written).tree
      (b.makePages docs t written).written := by
  induction docs generalizing t written pages with
  | nil => exact .nil
  | cons e docs ih =>
      obtain ⟨file, target⟩ := e
      obtain ⟨page, new, rest, hfound, hcopies, hrest, -⟩ :=
        makePages_cons_eq_ok (v := ⟨t, written, file, target⟩) h
      obtain ⟨hmade, hvisits⟩ := makePages_cons_of_ok docs (makePage_of_ok hfound hcopies)
      rw [hmade, hvisits]
      exact .cons (v := ⟨t, written, file, target⟩) hfound hcopies (ih hrest)

theorem visits_of_topLevel {b : Build} {t : FileTree} {es : List Event} {docs : List (Path × Path)}
    (hpages : b.pages = none) (htop : b.topLevel t = (es, .ok docs)) :
    b.visits t = b.visitAll docs t b.written := by
  rw [visits, hpages, htop]

theorem run_of_topLevel {b : Build} {t : FileTree} {es : List Event} {docs : List (Path × Path)}
    (hpages : b.pages = none) (htop : b.topLevel t = (es, .ok docs)) :
    (b.run t).tree = (b.makePages docs t b.written).tree ∧
      (b.run t).written = (b.makePages docs t b.written).written ∧
      (b.run t).result = (b.makePages docs t b.written).result := by
  rw [run, hpages]
  simp only [make, htop, and_self]

/-- **A run that does not fail** is the chain of its visits. -/
theorem run_runs {b : Build} {t : FileTree} (h : (b.run t).result.isOk) :
    b.Runs t b.written (b.visits t) (b.run t).tree (b.run t).written := by
  cases hpages : b.pages with
  | some pages =>
      rw [run_of_pages hpages, visits, hpages]
      exact .nil
  | none =>
      cases htop : b.topLevel t with
      | mk es r =>
          cases r with
          | error e =>
              rw [run, hpages] at h
              simp only [make, htop] at h
              exact absurd h (by simp [Except.isOk, Except.toBool])
          | ok docs =>
              obtain ⟨htree, hwritten, hresult⟩ := run_of_topLevel hpages htop
              rw [htree, hwritten, visits_of_topLevel hpages htop]
              rw [hresult] at h
              obtain ⟨pages, hdone⟩ := Search.exists_ok_of_isOk h
              exact makePages_runs hdone

/-- **The chain, cut at a visit**: the visits before it lead to what it finds, and the visits after
it start from what it leaves. -/
theorem Runs.split {b : Build} {t t' : FileTree} {written written' : List Path} {vs : List Visit}
    (h : b.Runs t written vs t' written') {v : Visit} (hv : v ∈ vs) :
    ∃ before after page new, vs = before ++ v :: after ∧
      b.Runs t written before v.tree v.written ∧ (b.found v).result = .ok page ∧
      (b.copies v).result = .ok new ∧
      b.Runs (b.copies v).tree (v.written ++ new) after t' written' := by
  induction h with
  | nil => simp at hv
  | @cons u us page new t' written' hfound hcopies hrest ih =>
      rcases List.mem_cons.1 hv with rfl | hv
      · exact ⟨[], us, page, new, rfl, .nil, hfound, hcopies, hrest⟩
      · obtain ⟨before, after, page', new', rfl, hbefore, hfound', hcopies', hafter⟩ := ih hv
        exact ⟨u :: before, after, page', new', rfl, .cons hfound hcopies hbefore, hfound',
          hcopies', hafter⟩

end Build

end Folio

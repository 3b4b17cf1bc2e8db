import Mathlib.Data.List.Basic
import Folio.Inclusion

/-!
# The search with finished pages

The search keeps drafts in the order of their creation and makes the pages when it has ended. Here
is the same search with nested pages: **a page is finished when its document is closed**, and
becomes a child of the page around it. Nothing is looked up by a number. The lines that are left to
follow, and the ends of the documents, are one agenda.

**The layout.** A search goes depth first, so the drafts of a page and of those below it are created
one after the other (`Page.drafts`), and the number of a child is that of its parent and the sizes
of what lies between them. The drafts of the open pages are known in the same way (`openDrafts`):
all that is not finished stands at their ends.

**The simulation** (`work_eq_run`). Each step of one search is a step of the other one, and the
drafts keep their layout. So freezing them gives the page that has been built up
(`Drafts.freeze_eq`).

Main result: `collect_eq_nested`, the two searches find the same.
-/

namespace Folio

/-! ## The agenda -/

/-- An item of the agenda: a directive to follow, or the end of the lines of a document. -/
inductive Task where
  | follow (d : Directive)
  | close
deriving DecidableEq

/-- A page whose children are still being collected, the last one first. -/
structure OpenPage where
  path : Path
  children : List Page

namespace OpenPage

/-- The page, which gets no more children. -/
def page (d : OpenPage) : Page := .node d.path d.children.reverse

/-- The page with one more child. -/
def add (p : Page) (d : OpenPage) : OpenPage := { d with children := p :: d.children }

/-- The number of pages that have been made, that of the document included. -/
def size (d : OpenPage) : Nat := Page.sizeAll d.children + 1

end OpenPage

namespace Search

/-- The page of the outermost of some open pages, when nothing more is collected. -/
def finish (draft : OpenPage) (outer : List OpenPage) : Page :=
  (outer.foldl (fun inner o => o.add inner.page) draft).page

/-- Works off the agenda. The pages `draft` and `outer` are those of the document whose lines come
next and of the documents that include it, innermost first. A document is gone into by `enter`,
which is given all that follows it. -/
def run (s : Search) (enter : Directive → List Task → List OpenPage → Targets → Finding) :
    List Task → OpenPage → List OpenPage → Targets → Finding
  | [], draft, outer, m => ⟨m, [], .ok (finish draft outer)⟩
  | .close :: tasks, draft, [], m => run s enter tasks draft [] m
  | .close :: tasks, draft, o :: outer, m => run s enter tasks (o.add draft.page) outer m
  | .follow d :: tasks, draft, outer, m =>
      match d.promotes? s.tree with
      | .error f => ⟨m, [], .error (.uncertain f)⟩
      | .ok false => (run s enter tasks draft outer m).after (.kept d.path d.actual d.file d.target)
      | .ok true =>
          match m.get? d.actual with
          | some there =>
              (run s enter tasks (draft.add (.leaf there)) outer m).after
                (.revisited d.path d.actual d.file d.target)
          | none =>
              (enter d (.close :: tasks) (draft :: outer) m).after
                (.promoted d.path d.actual d.result d.file d.target)

/-- Gives a document its target and puts its directives on the agenda, which `next` works off. -/
def enter (s : Search) (next : List Task → OpenPage → List OpenPage → Targets → Finding)
    (file target : Path) (tasks : List Task) (outer : List OpenPage) (m : Targets) : Finding :=
  let m := m.insert file target
  Finding.after (.entered file target) <|
    match s.directives file target with
    | .error e => ⟨m, [], .error e⟩
    | .ok ds => next (ds.map .follow ++ tasks) ⟨target, []⟩ outer m

/-- Works off the agenda and goes into at most this many documents. -/
def runWithin (s : Search) : Nat → List Task → OpenPage → List OpenPage → Targets → Finding
  | 0 => s.run fun _ _ _ m => ⟨m, [], .error .endless⟩
  | n + 1 => s.run fun d tasks outer m => s.enter (runWithin s n) d.actual d.result tasks outer m

/-- The page of a document with all that is found below it, by the agenda. -/
def collectNested (s : Search) (file target : Path) (m : Targets) : Finding :=
  match m.get? file with
  | some there => ⟨m, [], .ok (.leaf there)⟩
  | none => s.enter (s.runWithin documentBound) file target [] [] m

end Search

/-! ## The layout of finished pages -/

namespace Page

/-- The numbers of sibling drafts, when the first one is given and others are created below them. -/
def numbers (n : Nat) : List Page → List Nat
  | [] => []
  | p :: ps => n :: numbers (n + p.size) ps

mutual

/-- The drafts of a page and of those below it, when its own draft has a number. -/
def drafts (n : Nat) : Page → List Draft
  | node p cs => ⟨p, numbers (n + 1) cs⟩ :: draftsAll (n + 1) cs

/-- The drafts of some sibling pages. -/
def draftsAll (n : Nat) : List Page → List Draft
  | [] => []
  | c :: cs => drafts n c ++ draftsAll (n + c.size) cs

end

theorem sizeAll_reverse (ps : List Page) : sizeAll ps.reverse = sizeAll ps := by
  induction ps with
  | nil => rfl
  | cons p ps ih =>
      rw [List.reverse_cons, sizeAll_append, ih]
      simp only [sizeAll]
      omega

mutual

theorem length_drafts (n : Nat) : (p : Page) → (p.drafts n).length = p.size
  | node p cs => by rw [drafts, List.length_cons, length_draftsAll, size]

theorem length_draftsAll (n : Nat) : (ps : List Page) → (draftsAll n ps).length = sizeAll ps
  | [] => rfl
  | p :: ps => by rw [draftsAll, List.length_append, length_drafts, length_draftsAll, sizeAll]

end

theorem numbers_concat (n : Nat) (ps : List Page) (p : Page) :
    numbers n (ps ++ [p]) = numbers n ps ++ [n + sizeAll ps] := by
  induction ps generalizing n with
  | nil => rfl
  | cons q ps ih => rw [List.cons_append, numbers, ih, numbers, sizeAll, Nat.add_assoc]; rfl

theorem draftsAll_concat (n : Nat) (ps : List Page) (p : Page) :
    draftsAll n (ps ++ [p]) = draftsAll n ps ++ p.drafts (n + sizeAll ps) := by
  induction ps generalizing n with
  | nil => simp [draftsAll, sizeAll]
  | cons q ps ih =>
      rw [List.cons_append, draftsAll, ih, draftsAll, sizeAll, List.append_assoc, Nat.add_assoc]

theorem le_of_mem_numbers {n k : Nat} {ps : List Page} (h : k ∈ numbers n ps) : n ≤ k := by
  induction ps generalizing n with
  | nil => cases h
  | cons p ps ih =>
      rcases List.mem_cons.1 h with rfl | h
      · exact Nat.le_refl _
      · exact Nat.le_trans (Nat.le_add_right n p.size) (ih h)

end Page

namespace Drafts

open Page

/-- A draft is looked up among those that are created after it has been. -/
theorem lookup_pagesFrom_append {n k : Nat} {ds : List Draft} (h : n + ds.length ≤ k)
    (ds' : List Draft) :
    (pagesFrom n (ds ++ ds')).lookup k = (pagesFrom (n + ds.length) ds').lookup k := by
  induction ds generalizing n with
  | nil => rfl
  | cons d ds ih =>
      rw [List.length_cons] at h ⊢
      have hne : (k == n) = false := by simp; omega
      have hlen : n + (ds.length + 1) = n + 1 + ds.length := by omega
      rw [List.cons_append, pagesFrom, List.lookup_cons, hne, hlen]
      exact ih (by omega)

mutual

/-- **A page is frozen from its drafts**, whatever is created after them. -/
theorem lookup_drafts (n : Nat) (ds : List Draft) :
    (p : Page) → (pagesFrom n (p.drafts n ++ ds)).lookup n = some p
  | .node path cs => by
      rw [drafts, List.cons_append, pagesFrom, List.lookup_cons, beq_self_eq_true]
      simp only [Draft.page, filterMap_numbers]

theorem filterMap_numbers (n : Nat) (ds : List Draft) : (ps : List Page) →
    ((numbers n ps).filterMap fun k => (pagesFrom n (draftsAll n ps ++ ds)).lookup k) = ps
  | [] => rfl
  | p :: ps => by
      have hlater : ∀ k ∈ numbers (n + p.size) ps,
          (pagesFrom n (draftsAll n (p :: ps) ++ ds)).lookup k =
            (pagesFrom (n + p.size) (draftsAll (n + p.size) ps ++ ds)).lookup k := by
        intro k hk
        have hlen := length_drafts n p
        rw [draftsAll, List.append_assoc, lookup_pagesFrom_append, hlen]
        rw [hlen]
        exact le_of_mem_numbers hk
      have hfirst : (pagesFrom n (draftsAll n (p :: ps) ++ ds)).lookup n = some p := by
        rw [draftsAll, List.append_assoc]
        exact lookup_drafts n _ p
      simp only [numbers, List.filterMap_cons, hfirst, List.filterMap_congr hlater]
      rw [filterMap_numbers]

end

def all (ds : Drafts) : List Draft := ds.root :: ds.later

theorem length_all (ds : Drafts) : ds.all.length = ds.size := rfl

theorem freeze_eq {ds : Drafts} {p : Page} (h : ds.all = p.drafts 0) : ds.freeze = p := by
  have hfirst : (pagesFrom 0 ds.all).lookup 0 = some ds.freeze := by
    rw [all, pagesFrom, List.lookup_cons, beq_self_eq_true]
    rfl
  have hpage := lookup_drafts 0 [] p
  rw [List.append_nil, ← h, hfirst] at hpage
  exact Option.some.inj hpage

theorem all_create (ds : Drafts) (parent : Nat) (path : Path) :
    (ds.create parent path).all =
      ds.all.modify parent (Draft.addChild ds.size) ++ [⟨path, []⟩] := by
  cases parent <;> rfl

end Drafts

/-! ## The layout of open pages -/

namespace OpenPage

open Page

theorem size_page (d : OpenPage) : d.page.size = d.size := by
  rw [page, Page.size, sizeAll_reverse, size]

/-- The number of the draft that comes after those of some open pages. -/
def next : List OpenPage → Nat
  | [] => 0
  | o :: outer => next outer + o.size

/-- The drafts of some open pages. The innermost one has a child that is not among them and comes
next, as each of the others has. -/
def openDrafts : List OpenPage → List Draft
  | [] => []
  | o :: outer =>
      openDrafts outer ++
        ⟨o.path, numbers (next outer + 1) o.children.reverse ++ [next (o :: outer)]⟩ ::
          draftsAll (next outer + 1) o.children.reverse

/-- The numbers of the drafts of some open pages. -/
def numbersOf : List OpenPage → List Nat
  | [] => []
  | _ :: outer => next outer :: numbersOf outer

theorem length_openDrafts (outer : List OpenPage) : (openDrafts outer).length = next outer := by
  induction outer with
  | nil => rfl
  | cons o outer ih =>
      rw [openDrafts, List.length_append, List.length_cons, length_draftsAll, ih, sizeAll_reverse]
      rfl

theorem next_cons (o : OpenPage) (outer : List OpenPage) :
    next (o :: outer) = next outer + 1 + sizeAll o.children.reverse := by
  rw [next, size, sizeAll_reverse]
  omega

/-- A page is a child of an open one, with all the drafts below it. -/
theorem openDrafts_append (o : OpenPage) (outer : List OpenPage) (p : Page) :
    openDrafts (o :: outer) ++ p.drafts (next (o :: outer)) =
      openDrafts outer ++ (o.add p).page.drafts (next outer) := by
  rw [openDrafts, List.append_assoc, List.cons_append, OpenPage.page, drafts]
  simp only [add, List.reverse_cons]
  rw [numbers_concat, draftsAll_concat, ← next_cons]

end OpenPage

namespace Drafts

open OpenPage

/-- The drafts are those of an innermost page and of the open ones around it. -/
def Lays (ds : Drafts) (draft : OpenPage) (outer : List OpenPage) : Prop :=
  ds.all = openDrafts outer ++ draft.page.drafts (next outer)

variable {ds : Drafts} {draft o : OpenPage} {outer : List OpenPage}

theorem start_lays (path : Path) : (start path).Lays ⟨path, []⟩ [] := rfl

theorem Lays.size_eq (h : ds.Lays draft outer) : ds.size = next (draft :: outer) := by
  rw [← ds.length_all, h, List.length_append, length_openDrafts, Page.length_drafts, size_page, next]

theorem Lays.all_create (h : ds.Lays draft outer) (path : Path) :
    (ds.create (next outer) path).all = openDrafts (draft :: outer) ++ [⟨path, []⟩] := by
  have hmodify := List.modifyTailIdx_add (List.modifyHead (Draft.addChild (next (draft :: outer))))
    0 (openDrafts outer) (draft.page.drafts (next outer))
  rw [ds.all_create, h.size_eq, h, ← length_openDrafts outer]
  rw [length_openDrafts] at hmodify ⊢
  exact congrArg (· ++ [(⟨path, []⟩ : Draft)]) hmodify

/-- A document is gone into. -/
theorem Lays.create (h : ds.Lays draft outer) (path : Path) :
    (ds.create (next outer) path).Lays ⟨path, []⟩ (draft :: outer) :=
  h.all_create path

/-- A page without children is added. -/
theorem Lays.add_leaf (h : ds.Lays draft outer) (path : Path) :
    (ds.create (next outer) path).Lays (draft.add (.leaf path)) outer := by
  rw [Lays, ← openDrafts_append]
  exact h.all_create path

/-- A document is closed. -/
theorem Lays.close (h : ds.Lays draft (o :: outer)) : ds.Lays (o.add draft.page) outer := by
  rw [Lays, ← openDrafts_append]
  exact h

theorem Lays.freeze_eq (h : ds.Lays draft []) : ds.freeze = draft.page := Drafts.freeze_eq h

end Drafts

/-! ## The simulation -/

namespace Search

open OpenPage

variable {s : Search}

/-- What is left of the agenda when the innermost document is closed. -/
def behind : Stack → List Task
  | [] => []
  | (_, ds) :: stack => .close :: (ds.map .follow ++ behind stack)

/-- The directives of one document are followed in the same way, if the searches agree on what comes
when it is closed, and on the documents that are gone into. -/
theorem follow_eq_run {enter : Directive → List Directive → Nat → Drafts → Targets → Finding}
    {enter' : Directive → List Task → List OpenPage → Targets → Finding}
    {close : Drafts → Targets → Finding} {outer : List OpenPage} {tasks : List Task}
    (hclose : ∀ {drafts draft m}, Drafts.Lays drafts draft outer →
      close drafts m = s.run enter' tasks draft outer m)
    (henter : ∀ {d ds drafts draft m}, Drafts.Lays drafts draft outer →
      enter d ds drafts.size (drafts.create (next outer) d.result) m =
        enter' d (.close :: (ds.map .follow ++ tasks)) (draft :: outer) m)
    {ds : List Directive} {drafts : Drafts} {draft : OpenPage} {m : Targets}
    (h : drafts.Lays draft outer) :
    s.follow enter close (next outer) ds drafts m =
      s.run enter' (ds.map .follow ++ tasks) draft outer m := by
  induction ds generalizing drafts draft m with
  | nil => exact hclose h
  | cons d ds ih =>
      rw [follow, List.map_cons, List.cons_append, run]
      cases d.promotes? s.tree with
      | error f => rfl
      | ok promotes =>
          cases promotes with
          | false => exact congrArg (Finding.after _) (ih h)
          | true =>
              cases m.get? d.actual with
              | some there => exact congrArg (Finding.after _) (ih (h.add_leaf there))
              | none => exact congrArg (Finding.after _) (henter h)

/-- **Working off the stack is working off the agenda**, if this holds for the documents that are
gone into. -/
theorem work_eq_run {enter : Directive → Nat → Stack → Drafts → Targets → Finding}
    {enter' : Directive → List Task → List OpenPage → Targets → Finding}
    (henter : ∀ {d ds stack outer drafts draft m}, Drafts.Lays drafts draft outer →
      stack.map Prod.fst = numbersOf outer →
      enter d drafts.size ((next outer, ds) :: stack) (drafts.create (next outer) d.result) m =
        enter' d (behind ((next outer, ds) :: stack)) (draft :: outer) m)
    {ds : List Directive} {stack : Stack} {outer : List OpenPage} {drafts : Drafts}
    {draft : OpenPage} {m : Targets} (h : drafts.Lays draft outer)
    (hstack : stack.map Prod.fst = numbersOf outer) :
    s.work enter ((next outer, ds) :: stack) drafts m =
      s.run enter' (ds.map .follow ++ behind stack) draft outer m := by
  induction stack generalizing ds outer drafts draft m with
  | nil =>
      cases outer with
      | cons o outer => cases hstack
      | nil =>
          refine follow_eq_run (fun h => ?_) (fun h => henter h rfl) h
          rw [work, behind, run, h.freeze_eq]
          rfl
  | cons top stack ih =>
      cases outer with
      | nil => cases hstack
      | cons o outer =>
          obtain ⟨n, left⟩ := top
          obtain ⟨rfl, htail⟩ := List.cons.inj hstack
          refine follow_eq_run (fun h => ?_) (fun h => henter h hstack) h
          rw [behind, run]
          exact ih h.close htail

theorem workWithin_eq_runWithin (n : Nat) {ds : List Directive} {stack : Stack}
    {outer : List OpenPage} {drafts : Drafts} {draft : OpenPage} {m : Targets}
    (h : drafts.Lays draft outer) (hstack : stack.map Prod.fst = numbersOf outer) :
    s.workWithin n ((next outer, ds) :: stack) drafts m =
      s.runWithin n (ds.map .follow ++ behind stack) draft outer m := by
  induction n generalizing ds stack outer drafts draft m with
  | zero => exact work_eq_run (fun _ _ => rfl) h hstack
  | succ n ih =>
      refine work_eq_run (fun {d left stack outer drafts draft m} h hstack => ?_) h hstack
      rw [scan, enter]
      cases s.directives d.actual d.result with
      | error e => rfl
      | ok inner =>
          have hnext := h.size_eq
          refine congrArg (Finding.after _) ?_
          simp only [hnext]
          exact ih (h.create d.result) (congrArg _ hstack)

/-- **Drafts that are frozen at the end give the pages that are finished on the way.** -/
theorem collect_eq_nested (s : Search) (file target : Path) (m : Targets) :
    s.collect file target m = s.collectNested file target m := by
  rw [collect, collectNested]
  generalize documentBound = n
  cases m.get? file with
  | some there => rfl
  | none =>
      simp only [scan, enter]
      cases s.directives file target with
      | error e => rfl
      | ok ds =>
          have hwork : s.workWithin n [(0, ds)] (.start target) (m.insert file target) =
              s.runWithin n (ds.map .follow ++ behind []) ⟨target, []⟩ [] (m.insert file target) :=
            workWithin_eq_runWithin n (Drafts.start_lays target) rfl
          exact congrArg (Finding.after _) hwork

theorem collect_of_unmapped {file target : Path} {m : Targets} (h : m.get? file = none) :
    s.collect file target m = s.enter (s.runWithin documentBound) file target [] [] m := by
  rw [collect_eq_nested, collectNested, h]

end Search

end Folio

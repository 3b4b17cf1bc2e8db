import Folio.Path

/-!
# Pages

A document that becomes a page has the documents it includes as its children. Pages are reported as
rows, each a depth and a path: a page comes before its children, and these come before its next
sibling.

* `Page.visits` lists pages with all that are below them, working off an agenda, and `Page.walk`
  gives their rows.
* `Page.ofRows` builds the pages that have given rows.
* `Page.report` writes the rows as indented lines, with paths relative to a root.

Main results: `visits_cons`, the first page on the agenda is followed by its children, and
`visits_append`, the agenda is worked off piece by piece.
-/

namespace Folio

/-- A page with the path of its document and its children in order. -/
inductive Page where
  | node (path : Path) (children : List Page)

namespace Page

/-- The path of the document of a page. -/
def path : Page → Path
  | node p _ => p

def children : Page → List Page
  | node _ cs => cs

def leaf (p : Path) : Page := node p []

mutual

/-- The number of pages at and below a page. -/
def size : Page → Nat
  | node _ cs => sizeAll cs + 1

/-- The number of pages at and below some pages. -/
def sizeAll : List Page → Nat
  | [] => 0
  | c :: cs => size c + sizeAll cs

end

theorem sizeAll_append (ps qs : List Page) : sizeAll (ps ++ qs) = sizeAll ps + sizeAll qs := by
  induction ps with
  | nil => simp [sizeAll]
  | cons p ps ih => simp only [List.cons_append, sizeAll, ih]; omega

/-! ## Rows -/

/-- The pages on an agenda and those below them, each with its depth. The first page is taken off
the agenda, and its children are put in its place, one level deeper. -/
def visits : List (Nat × Page) → List (Nat × Page)
  | [] => []
  | (d, node p cs) :: rest => (d, node p cs) :: visits (cs.map (fun c => (d + 1, c)) ++ rest)
termination_by agenda => sizeAll (agenda.map Prod.snd)
decreasing_by
  simp [sizeAll_append, sizeAll, size, Function.comp_def]

@[simp] theorem visits_nil : visits [] = [] := by rw [visits]

theorem visits_cons (d : Nat) (p : Path) (cs : List Page) (rest : List (Nat × Page)) :
    visits ((d, node p cs) :: rest) =
      (d, node p cs) :: visits (cs.map (fun c => (d + 1, c)) ++ rest) := by
  rw [visits]

theorem visits_append (xs ys : List (Nat × Page)) :
    visits (xs ++ ys) = visits xs ++ visits ys := by
  induction xs using visits.induct with
  | case1 => rw [visits_nil, List.nil_append, List.nil_append]
  | case2 d p cs rest ih =>
      simp only [List.map_subtype, List.unattach_attach] at ih
      rw [List.cons_append, visits_cons, visits_cons, ← List.append_assoc, ih, List.cons_append]

/-- The rows of the pages on an agenda and of those below them. -/
def walk (agenda : List (Nat × Page)) : List (Nat × Path) :=
  (visits agenda).map fun v => (v.1, v.2.path)

theorem walk_cons (d : Nat) (p : Path) (cs : List Page) (rest : List (Nat × Page)) :
    walk ((d, node p cs) :: rest) = (d, p) :: walk (cs.map (fun c => (d + 1, c)) ++ rest) := by
  rw [walk, visits_cons]
  rfl

/-- The rows of some pages, the first ones at the given depth. -/
def rows (d : Nat) (pages : List Page) : List (Nat × Path) := walk (pages.map fun p => (d, p))

/-- The pages with these rows: a row with a greater depth that follows directly belongs
to a child. -/
def ofRows : List (Nat × Path) → List Page
  | [] => []
  | (d, p) :: rest =>
      node p (ofRows (rest.takeWhile fun r => decide (d < r.1))) ::
        ofRows (rest.dropWhile fun r => decide (d < r.1))
termination_by rs => rs.length
decreasing_by
  · exact Nat.lt_succ_of_le (List.takeWhile_sublist _).length_le
  · exact Nat.lt_succ_of_le (List.dropWhile_sublist _).length_le

/-! ## The report -/

/-- The path of a page as the report shows it: relative to the root if it lies below it. -/
def label (root p : Path) : Text :=
  match Path.below? root p with
  | some names => Path.toText ⟨.here, names⟩
  | none => p.toText

def line (root : Path) (row : Nat × Path) : Text :=
  (List.replicate row.1 [' ', ' ']).flatten ++ '-' :: ' ' :: label root row.2

def report (root : Path) (pages : List Page) : List Text := (rows 0 pages).map (line root)

end Page

end Folio

import Folio.Proofs.NullFree
import Folio.Proofs.Rereading

/-!
# A report tells the pages

The pages of a run are listed by an agenda and written as indented lines, each with a path that is
relative to the root or not. Nothing is lost on the way: **the pages can be read off the lines.**

**Order (`Page.visits_eq_preorder`).** Working off the agenda gives the pages in the order of the
plain recursion, where a page comes before its children and these before its next sibling.

**Depths (`Page.ofRows_rows`).** The pages below a page are the rows that follow it at greater
depths, up to the first one that is no deeper. So the rows tell which page belongs to which.

**Lines (`Page.readLine_line`).** The pairs of spaces in front of the dash are counted, whatever the
label begins with, and the label is followed from the root: a relative one leads to the page below
the root, an absolute one to itself.

Main result: `Page.report_faithful`.
-/

namespace Folio

namespace Page

/-! ## The order of the pages -/

mutual

/-- The page and those below it, each with its depth. -/
def preorder (d : Nat) : Page → List (Nat × Page)
  | node p cs => (d, node p cs) :: preorderAll (d + 1) cs

/-- Some pages and those below them. -/
def preorderAll (d : Nat) : List Page → List (Nat × Page)
  | [] => []
  | c :: cs => preorder d c ++ preorderAll d cs

end

theorem preorderAll_eq_flatMap (d : Nat) (pages : List Page) :
    preorderAll d pages = pages.flatMap (preorder d) := by
  induction pages with
  | nil => rfl
  | cons page pages ih => rw [preorderAll, ih, List.flatMap_cons]

/-- An agenda is worked off in the order of the recursion, whatever depths its pages have. -/
theorem visits_eq_flatMap (agenda : List (Nat × Page)) :
    visits agenda = agenda.flatMap fun v => preorder v.1 v.2 := by
  induction agenda using visits.induct with
  | case1 => rw [visits_nil, List.flatMap_nil]
  | case2 d p cs rest ih =>
      simp only [List.map_subtype, List.unattach_attach] at ih
      rw [visits_cons, ih, List.flatMap_append, List.flatMap_map, List.flatMap_cons, preorder,
        preorderAll_eq_flatMap, List.cons_append]

/-- **The agenda is the recursion.** -/
theorem visits_eq_preorder (d : Nat) (pages : List Page) :
    visits (pages.map fun p => (d, p)) = preorderAll d pages := by
  rw [visits_eq_flatMap, List.flatMap_map, preorderAll_eq_flatMap]

/-! ## Pages from rows -/

theorem rows_nil (d : Nat) : rows d [] = [] := by
  rw [rows, List.map_nil, walk, visits_nil, List.map_nil]

theorem rows_cons (d : Nat) (p : Path) (cs pages : List Page) :
    rows d (node p cs :: pages) = (d, p) :: (rows (d + 1) cs ++ rows d pages) := by
  rw [rows, List.map_cons, walk_cons, walk, visits_append, List.map_append]
  rfl

theorem le_of_mem_preorderAll {d : Nat} {pages : List Page} {v : Nat × Page}
    (h : v ∈ preorderAll d pages) : d ≤ v.1 := by
  match pages with
  | [] => exact absurd h List.not_mem_nil
  | node p cs :: pages =>
      rw [preorderAll, preorder, List.cons_append, List.mem_cons, List.mem_append] at h
      rcases h with rfl | hbelow | hnext
      · exact Nat.le_refl d
      · exact Nat.le_of_succ_le (le_of_mem_preorderAll hbelow)
      · exact le_of_mem_preorderAll hnext

/-- No row of some pages has a smaller depth than these. -/
theorem le_of_mem_rows {d : Nat} {pages : List Page} {r : Nat × Path} (h : r ∈ rows d pages) :
    d ≤ r.1 := by
  rw [rows, walk, visits_eq_preorder] at h
  obtain ⟨v, hv, rfl⟩ := List.mem_map.1 h
  exact le_of_mem_preorderAll hv

/-- The rows of the next pages do not belong to the page in front of them. -/
theorem takeWhile_rows (d : Nat) (pages : List Page) :
    (rows d pages).takeWhile (fun r => decide (d < r.1)) = [] := by
  match pages with
  | [] => rw [rows_nil, List.takeWhile_nil]
  | node p cs :: pages =>
      rw [rows_cons, List.takeWhile_cons_of_neg (by simp)]

theorem dropWhile_rows (d : Nat) (pages : List Page) :
    (rows d pages).dropWhile (fun r => decide (d < r.1)) = rows d pages := by
  have hall := List.takeWhile_append_dropWhile (p := fun r : Nat × Path => decide (d < r.1))
    (l := rows d pages)
  rwa [takeWhile_rows, List.nil_append] at hall

/-- **The rows tell the pages**, at whatever depth they start. The rows of the children are all
deeper than the page, and the row behind them is not. -/
theorem ofRows_rows (d : Nat) (pages : List Page) : ofRows (rows d pages) = pages := by
  match pages with
  | [] => rw [rows_nil, ofRows]
  | node p cs :: pages =>
      have hbelow : ∀ r ∈ rows (d + 1) cs, decide (d < r.1) = true := fun r hr =>
        decide_eq_true (le_of_mem_rows hr)
      rw [rows_cons, ofRows, List.takeWhile_append_of_pos hbelow, takeWhile_rows, List.append_nil,
        List.dropWhile_append_of_pos hbelow, dropWhile_rows, ofRows_rows (d + 1) cs,
        ofRows_rows d pages]

/-! ## Rows from lines -/

/-- Reads a line of a report: each pair of spaces in front of the dash is a step down, and the label
behind it is followed from the root. -/
def readLine? (root : Path) : Text → Option (Nat × Path)
  | ' ' :: ' ' :: s => (readLine? root s).map fun r => (r.1 + 1, r.2)
  | '-' :: ' ' :: s => some (0, root.join (.ofText s))
  | _ => none

/-- The pages that some lines of a report show. -/
def readReport? (root : Path) (lines : List Text) : Option (List Page) :=
  (lines.mapM (readLine? root)).map ofRows

theorem below?_eq_some {root p : Path} {names : List Name} (h : Path.below? root p = some names) :
    p = ⟨root.anchor, root.names ++ names⟩ := by
  rw [Path.below?] at h
  split at h
  · next hanchor =>
      split at h
      · next hprefix =>
          obtain ⟨rest, hrest⟩ := List.isPrefixOf_iff_prefix.1 hprefix
          obtain rfl := Option.some.inj h
          obtain ⟨anchor, pnames⟩ := p
          obtain rfl : root.anchor = anchor := hanchor
          obtain rfl : root.names ++ rest = pnames := hrest
          rw [List.drop_left]
      · exact absurd h (by simp)
  · exact absurd h (by simp)

/-- **A label leads back** from the root to the page, below the root, at it or elsewhere. -/
theorem join_label (root : Path) {p : Path} (h : p.isAbsolute = true) :
    root.join (.ofText (label root p)) = p := by
  rw [label]
  cases hbelow : Path.below? root p with
  | none =>
      show root.join (.ofText p.toText) = p
      rw [Path.ofText_toText, Path.join, if_pos h]
  | some names =>
      show root.join (.ofText (Path.toText ⟨.here, names⟩)) = p
      rw [Path.ofText_toText, Path.join_here, below?_eq_some hbelow]

theorem readLine_line (root : Path) {r : Nat × Path} (h : r.2.isAbsolute = true) :
    readLine? root (line root r) = some r := by
  obtain ⟨d, p⟩ := r
  induction d with
  | zero =>
      show some (0, root.join (.ofText (label root p))) = some (0, p)
      rw [join_label root h]
  | succ d ih =>
      have hstep : line root (d + 1, p) = ' ' :: ' ' :: line root (d, p) := rfl
      rw [hstep, readLine?, ih h]
      rfl

/-- A label has no characters but those of its path, dots apart. -/
theorem not_mem_label (root : Path) {p : Path} {c : Char} (hslash : c ≠ '/') (hdot : c ≠ '.')
    (h : c ∉ p.toText) : c ∉ label root p := by
  intro hmem
  rw [label] at hmem
  cases hbelow : Path.below? root p with
  | none =>
      rw [hbelow] at hmem
      exact h hmem
  | some names =>
      rw [hbelow] at hmem
      obtain ⟨n, hn, hc⟩ := (Path.mem_toText hslash hdot).1 hmem
      refine h ((Path.mem_toText hslash hdot).2 ⟨n, ?_, hc⟩)
      rw [below?_eq_some hbelow]
      exact List.mem_append_right _ hn

theorem newline_not_mem_line (root : Path) {r : Nat × Path} (h : '\n' ∉ r.2.toText) :
    '\n' ∉ line root r := by
  have hindent : '\n' ∉ (List.replicate r.1 [' ', ' ']).flatten := by
    intro hmem
    obtain ⟨pair, hpair, hc⟩ := List.mem_flatten.1 hmem
    rw [(List.mem_replicate.1 hpair).2] at hc
    exact absurd hc (by decide)
  have hlabel := not_mem_label root (by decide) (by decide) h
  rw [line, List.mem_append, List.mem_cons, List.mem_cons]
  rintro (hmem | hmem | hmem | hmem)
  · exact hindent hmem
  · exact absurd hmem (by decide)
  · exact absurd hmem (by decide)
  · exact hlabel hmem

/-! ## The whole report -/

theorem mapM_readLine_line (root : Path) {rs : List (Nat × Path)}
    (h : ∀ r ∈ rs, r.2.isAbsolute = true) :
    (rs.map (line root)).mapM (readLine? root) = some rs := by
  induction rs with
  | nil => rfl
  | cons r rs ih =>
      rw [List.forall_mem_cons] at h
      rw [List.map_cons, List.mapM_cons, readLine_line root h.1, ih h.2]
      rfl

theorem readReport_report (root : Path) {pages : List Page}
    (h : ∀ r ∈ rows 0 pages, r.2.isAbsolute = true) :
    readReport? root (report root pages) = some pages := by
  rw [readReport?, report, mapM_readLine_line root h, Option.map_some, ofRows_rows]

/-- **A report is faithful.** The pages come in the order of the recursion, their depths and paths
tell which pages they are, and so do the lines of the report: each line shows the depth of its page
and the way to it from the root. Lines written one below the other can be told apart, if no path has
a line feed in it. -/
theorem report_faithful :
    (∀ (d : Nat) (pages : List Page),
      visits (pages.map fun p => (d, p)) = preorderAll d pages ∧
      rows d pages = (preorderAll d pages).map (fun v => (v.1, v.2.path)) ∧
      ofRows (rows d pages) = pages) ∧
    ∀ (root : Path) (pages : List Page),
      (∀ r ∈ rows 0 pages, r.2.isAbsolute = true ∧ '\n' ∉ r.2.toText) →
      (∀ r ∈ rows 0 pages, readLine? root (line root r) = some r) ∧
      readReport? root (report root pages) = some pages ∧
      Text.pieces (.ofLines (report root pages)) = report root pages := by
  refine ⟨fun d pages => ⟨visits_eq_preorder d pages, ?_, ofRows_rows d pages⟩,
    fun root pages h => ⟨fun r hr => readLine_line root (h r hr).1,
      readReport_report root fun r hr => (h r hr).1, ?_⟩⟩
  · rw [rows, walk, visits_eq_preorder]
  · refine Text.pieces_ofLines fun l hl => ?_
    obtain ⟨r, hr, rfl⟩ := List.mem_map.1 hl
    exact newline_not_mem_line root (h r hr).2

/-- A report of these pages has labels that begin with spaces and dashes, one that is a single dot,
and one of a page that is not below the root. -/
def atlas : List Page :=
  [.node (.ofText "/w".toList)
      [.node (.ofText "/w/  - a.adoc".toList) [.leaf (.ofText "/x/b.adoc".toList)],
        .leaf (.ofText "/w/- c.adoc".toList)],
    .leaf (.ofText "//w/d.adoc".toList)]

theorem atlas_rows : rows 0 atlas =
    [(0, .ofText "/w".toList), (1, .ofText "/w/  - a.adoc".toList), (2, .ofText "/x/b.adoc".toList),
      (1, .ofText "/w/- c.adoc".toList), (0, .ofText "//w/d.adoc".toList)] := by
  simp [atlas, leaf, rows_cons, rows_nil]

theorem atlas_report_faithful :
    (∀ r ∈ rows 0 atlas, r.2.isAbsolute = true ∧ '\n' ∉ r.2.toText) ∧
    readReport? (.ofText "/w".toList) (report (.ofText "/w".toList) atlas) = some atlas ∧
    report (.ofText "/w".toList) atlas =
      ["- .".toList, "  -   - a.adoc".toList, "    - /x/b.adoc".toList, "  - - c.adoc".toList,
        "- //w/d.adoc".toList] := by
  have hrows : ∀ r ∈ rows 0 atlas, r.2.isAbsolute = true ∧ '\n' ∉ r.2.toText := by
    rw [atlas_rows]
    decide +kernel
  refine ⟨hrows, (report_faithful.2 _ atlas hrows).2.1, ?_⟩
  rw [report, atlas_rows]
  decide +kernel

end Page

end Folio

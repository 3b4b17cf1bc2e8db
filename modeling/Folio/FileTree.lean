import Folio.OrderedMap
import Folio.Path

/-!
# File trees

A file tree is what a program sees of a disk: files with their contents, directories and symbolic
links, and the directory from which relative paths start. Entries are kept by location. A location
lists names with **the innermost name first**, so the directory of an entry is the tail of its
location, and everything below a directory has the location of that directory as a suffix.

* `FileTree.entryAt` looks an entry up; the root is always a directory.
* `FileTree.put` adds or replaces one entry, `FileTree.prune` removes everything below a location.

The type carries the law of a tree: what has an entry stands in a directory.

Main results: `entryAt_put` and `entryAt_prune` say what is found after a change.
-/

namespace Folio

/-! ## Entries and locations -/

inductive Entry where
  | file (content : List UInt8)
  | directory
  | link (target : Text)
deriving DecidableEq

/-- The names that lead to an entry from the root, innermost first. -/
abbrev Location := List Name

/-- The entry at a location, where `entries` holds all but the root. -/
def entryIn (entries : OrderedMap Location Entry) (loc : Location) : Option Entry :=
  if loc = [] then some .directory else entries.get? loc

/-- Files, directories and links below a root, where every entry stands in a directory. Relative
paths start at `cwd`, whose outermost name comes first. -/
structure FileTree where
  entries : OrderedMap Location Entry
  cwd : List Name
  closed : ∀ {n : Name} {loc : Location} {e : Entry},
    entries.get? (n :: loc) = some e → entryIn entries loc = some .directory

namespace FileTree

/-- The tree that holds nothing but its root. -/
def empty (cwd : List Name) : FileTree where
  entries := .empty
  cwd := cwd
  closed := by simp

def entryAt (t : FileTree) (loc : Location) : Option Entry := entryIn t.entries loc

@[simp] theorem entryAt_root (t : FileTree) : t.entryAt [] = some .directory := rfl

theorem entryAt_cons (t : FileTree) (n : Name) (loc : Location) :
    t.entryAt (n :: loc) = t.entries.get? (n :: loc) := by
  simp [entryAt, entryIn]

theorem entryAt_parent {t : FileTree} {n : Name} {loc : Location} {e : Entry}
    (h : t.entryAt (n :: loc) = some e) : t.entryAt loc = some .directory :=
  t.closed (by rwa [entryAt_cons] at h)

/-! ## Changes -/

/-- Puts an entry into a directory, in place of the entry of that name if there is one. A directory
is not replaced by anything else, since what it holds would be lost. -/
def put (t : FileTree) (n : Name) (loc : Location) (e : Entry)
    (hloc : t.entryAt loc = some .directory)
    (he : t.entryAt (n :: loc) = some .directory → e = .directory) : FileTree where
  entries := t.entries.insert (n :: loc) e
  cwd := t.cwd
  closed := by
    intro m p f h
    rw [OrderedMap.get?_insert] at h
    have key : ∀ q : Location, t.entryAt q = some .directory →
        entryIn (t.entries.insert (n :: loc) e) q = some .directory := by
      intro q hq
      cases q with
      | nil => rfl
      | cons a q =>
          simp only [entryIn, reduceCtorEq, if_false, OrderedMap.get?_insert]
          split
          · next heq =>
              rw [heq] at hq
              rw [he hq]
          · rwa [entryAt_cons] at hq
    split at h
    · next heq =>
        cases heq
        exact key loc hloc
    · exact key p (t.closed h)

theorem entryAt_put (t : FileTree) (n : Name) (loc : Location) (e : Entry)
    (hloc : t.entryAt loc = some .directory)
    (he : t.entryAt (n :: loc) = some .directory → e = .directory) (p : Location) :
    (t.put n loc e hloc he).entryAt p = if p = n :: loc then some e else t.entryAt p := by
  cases p with
  | nil => simp
  | cons a p => simp [entryAt_cons, put, OrderedMap.get?_insert]

/-- Removes the entries at and below a location that pass the test `gone`, which holds below every
location for which it holds. -/
def drop (t : FileTree) (gone : Location → Bool)
    (hgone : ∀ n loc, gone loc = true → gone (n :: loc) = true) : FileTree where
  entries := t.entries.filter fun loc => !gone loc
  cwd := t.cwd
  closed := by
    intro n loc e h
    rw [OrderedMap.get?_filter] at h
    split at h
    · next hkeep =>
        have hdir := t.closed h
        cases loc with
        | nil => rfl
        | cons m loc =>
            have hkept : gone (m :: loc) = false := by
              cases hg : gone (m :: loc) with
              | false => rfl
              | true => simp [hgone n _ hg] at hkeep
            simpa [entryIn, OrderedMap.get?_filter, hkept] using hdir
    · exact absurd h (by simp)

theorem entryAt_drop (t : FileTree) (gone : Location → Bool)
    (hgone : ∀ n loc, gone loc = true → gone (n :: loc) = true) (n : Name) (loc : Location) :
    (t.drop gone hgone).entryAt (n :: loc) =
      if gone (n :: loc) then none else t.entryAt (n :: loc) := by
  simp only [entryAt_cons, drop, OrderedMap.get?_filter]
  cases gone (n :: loc) <;> rfl

/-- Whether a location lies at or below another one. -/
def within (top loc : Location) : Bool := top.isSuffixOf loc

theorem within_iff {top loc : Location} : within top loc = true ↔ top <:+ loc := by
  simp [within, List.isSuffixOf_iff_suffix]

/-- Removes the entry at a location with everything below it. -/
def prune (t : FileTree) (top : Location) : FileTree :=
  t.drop (within top) fun n _ h =>
    within_iff.2 ((within_iff.1 h).trans (List.suffix_cons n _))

/-- Removes everything below a location, but not the entry at it. -/
def clear (t : FileTree) (top : Location) : FileTree :=
  t.drop (fun loc => within top loc && decide (loc ≠ top)) fun n loc h => by
    simp only [Bool.and_eq_true, within_iff, decide_eq_true_eq] at h ⊢
    refine ⟨h.1.trans (List.suffix_cons n _), fun heq => ?_⟩
    have := h.1.length_le
    have := congrArg List.length heq
    simp at this
    omega

theorem entryAt_prune (t : FileTree) (top : Location) (n : Name) (loc : Location) :
    (t.prune top).entryAt (n :: loc) =
      if within top (n :: loc) then none else t.entryAt (n :: loc) :=
  entryAt_drop t _ _ n loc

/-! ## Listings -/

/-- The entries below a location, each with the names that lead to it from there, outermost first,
in alphabetical order of these paths. -/
def below (t : FileTree) (top : Location) : List (Text × Entry) :=
  let found := t.entries.entries.filterMap fun e =>
    if within top e.1 && decide (e.1 ≠ top) then
      some (Text.join ['/'] ((e.1.take (e.1.length - top.length)).reverse.map Name.text), e.2)
    else none
  found.mergeSort fun a b => Text.le a.1 b.1

/-- The names of the entries of a directory, in alphabetical order. -/
def namesIn (t : FileTree) (top : Location) : List Name :=
  let found := t.entries.keys.filterMap fun loc =>
    match loc with
    | [] => none
    | n :: rest => if rest = top then some n else none
  found.mergeSort fun a b => Text.le a.text b.text

end FileTree

end Folio

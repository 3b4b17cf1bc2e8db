import Folio.Text

/-!
# Paths

A path is an anchor and a list of names. The anchor tells whether the path starts at the place
where it is used, at the root, or at the root written with two slashes, which is kept apart from
it. Names hold no slash and are neither empty nor a single dot, so a text such as `a//./b/` is the
path `a/b`. **The name `..` is kept** until a path is normalized.

* `Path.ofText` and `Path.toText` read and write paths.
* `Path.normalize` lets `..` cancel the name in front of it, without looking at any file.
* `Path.relativeTo` leads from one directory to another place.
* `Path.graft?` moves a path from below one directory to below another.

Main results: `ofText_toText`, writing a path and reading it again gives the same path, and
`Name.ofText?_text`.
-/

namespace Folio

/-! ## Names -/

/-- A text that can stand between two slashes of a path. -/
def Name.Proper (t : Text) : Prop := t ≠ [] ∧ '/' ∉ t ∧ t ≠ ['.']

instance (t : Text) : Decidable (Name.Proper t) :=
  inferInstanceAs (Decidable (t ≠ [] ∧ '/' ∉ t ∧ t ≠ ['.']))

/-- One component of a path: its text is not empty, holds no slash and is not a single dot. -/
structure Name where
  text : Text
  proper : Name.Proper text
deriving DecidableEq

namespace Name

/-- The name with this text, if there is one. -/
def ofText? (t : Text) : Option Name :=
  if h : Proper t then some ⟨t, h⟩ else none

/-- The name `..`, which leads to the parent directory. -/
def up : Name := ⟨['.', '.'], by decide⟩

theorem ofText?_text (n : Name) : ofText? n.text = some n := by
  simp [ofText?, n.proper]

end Name

/-! ## Paths as texts -/

/-- Where a path starts: at the place where it is used, or at the root directory, which may be
written with two slashes. -/
inductive Anchor where
  | here
  | root
  | doubleRoot
deriving DecidableEq

namespace Anchor

/-- The anchor of a path that begins with this many slashes: exactly two are kept, three or more
are one. -/
def ofSlashes : Nat → Anchor
  | 0 => here
  | 2 => doubleRoot
  | _ => root

/-- The slashes with which a path of this anchor begins. -/
def toText : Anchor → Text
  | here => []
  | root => ['/']
  | doubleRoot => ['/', '/']

end Anchor

/-- An anchor and the names to follow from there. -/
structure Path where
  anchor : Anchor
  names : List Name
deriving DecidableEq

namespace Path

instance : Inhabited Path := ⟨⟨.here, []⟩⟩

/-- Reads a path: empty names and single dots between the slashes are passed over. -/
def ofText (t : Text) : Path where
  anchor := .ofSlashes (t.takeWhile (· == '/')).length
  names := (Text.splitOn '/' t).filterMap Name.ofText?

/-- Writes a path; the path that leads nowhere is a single dot. -/
def toText (p : Path) : Text :=
  if p.anchor = .here ∧ p.names = [] then ['.']
  else p.anchor.toText ++ Text.join ['/'] (p.names.map Name.text)

/-- Whether the path starts at the root directory. -/
def isAbsolute (p : Path) : Bool := p.anchor != .here

/-- The path followed from another one; an absolute path is taken alone. -/
def join (p q : Path) : Path :=
  if q.isAbsolute then q else ⟨p.anchor, p.names ++ q.names⟩

/-- The path without its last name. -/
def parent (p : Path) : Path := ⟨p.anchor, p.names.dropLast⟩

/-- The text of the last name, empty if there is none. -/
def baseName (p : Path) : Text := (p.names.getLast?.map Name.text).getD []

/-- The path with one more name at its end. -/
def child (p : Path) (n : Name) : Path := ⟨p.anchor, p.names ++ [n]⟩

/-! ## Normalization -/

/-- Follows one more name, on a stack of names whose top is the last one: `..` cancels the name on
top, unless that is itself a `..`, and cannot climb above the root. -/
def push (absolute : Bool) (stack : List Name) (n : Name) : List Name :=
  if n = .up then
    match stack with
    | [] => if absolute then [] else [n]
    | top :: rest => if top = .up then n :: stack else rest
  else n :: stack

/-- The path with every `..` cancelled against the name in front of it, as far as there is one. -/
def normalize (p : Path) : Path :=
  ⟨p.anchor, (p.names.foldl (push p.isAbsolute) []).reverse⟩

/-- The normalized path, taken from `base` if it is not absolute. -/
def absolute (base p : Path) : Path := (base.join p).normalize

/-! ## From one place to another -/

/-- The names that lead from one list of names to another below the same root: up to the last
common directory, then down. -/
def offset : List Name → List Name → List Name
  | a :: as, b :: bs => if a = b then offset as bs else .up :: (as.map fun _ => .up) ++ b :: bs
  | as, bs => (as.map fun _ => .up) ++ bs

/-- The path that leads from the directory `start` to `target`; both are taken from `base` if they
are not absolute. -/
def relativeTo (base start target : Path) : Path :=
  ⟨.here, offset (absolute base start).names (absolute base target).names⟩

/-- The names that follow `root` in a path that begins with it. -/
def below? (root p : Path) : Option (List Name) :=
  if root.anchor = p.anchor then
    if root.names.isPrefixOf p.names then some (p.names.drop root.names.length) else none
  else none

/-- Moves a path from below `root` to the same place below `target`. -/
def graft? (root p target : Path) : Option Path :=
  (below? root p).map fun names => normalize ⟨target.anchor, target.names ++ names⟩

/-! ## Reading back what was written -/

theorem filterMap_ofText?_map_text (ns : List Name) :
    (ns.map Name.text).filterMap Name.ofText? = ns := by
  induction ns with
  | nil => rfl
  | cons n ns ih =>
      rw [List.map_cons, List.filterMap_cons_some (Name.ofText?_text n), ih]

theorem splitOn_append_cons {sep : Char} {p : Text} (hp : sep ∉ p) (s : Text) :
    Text.splitOn sep (p ++ sep :: s) = p :: Text.splitOn sep s := by
  induction p with
  | nil => simp [Text.splitOn]
  | cons c p ih =>
      simp only [List.mem_cons, not_or] at hp
      simp [Text.splitOn, Ne.symm hp.1, ih hp.2]

theorem splitOn_of_not_mem {sep : Char} {p : Text} (hp : sep ∉ p) : Text.splitOn sep p = [p] := by
  induction p with
  | nil => rfl
  | cons c p ih =>
      simp only [List.mem_cons, not_or] at hp
      simp [Text.splitOn, Ne.symm hp.1, ih hp.2]

theorem splitOn_join {sep : Char} :
    ∀ {ps : List Text}, ps ≠ [] → (∀ p ∈ ps, sep ∉ p) → Text.splitOn sep (Text.join [sep] ps) = ps
  | [], h, _ => absurd rfl h
  | [p], _, hp => by simpa [Text.join] using splitOn_of_not_mem (hp p (by simp))
  | p :: q :: ps, _, hp => by
      have ih : Text.splitOn sep (Text.join [sep] (q :: ps)) = q :: ps :=
        splitOn_join (by simp) fun r hr => hp r (by simp [hr])
      simp only [Text.join, List.append_assoc, List.cons_append, List.nil_append]
      rw [splitOn_append_cons (hp p (by simp)), ih]

theorem filterMap_splitOn_join (ns : List Name) :
    (Text.splitOn '/' (Text.join ['/'] (ns.map Name.text))).filterMap Name.ofText? = ns := by
  cases ns with
  | nil => rfl
  | cons n ns =>
      rw [splitOn_join (by simp), filterMap_ofText?_map_text]
      intro p hp
      obtain ⟨m, -, rfl⟩ := List.mem_map.1 hp
      exact m.proper.2.1

theorem takeWhile_slash_join (ns : List Name) :
    (Text.join ['/'] (ns.map Name.text)).takeWhile (· == '/') = [] := by
  cases ns with
  | nil => rfl
  | cons n ns =>
      obtain ⟨c, t, ht⟩ := List.exists_cons_of_ne_nil n.proper.1
      have hc : c ≠ '/' := fun h => n.proper.2.1 (by simp [ht, h])
      cases ns with
      | nil => simp [Text.join, ht, hc]
      | cons m ns => simp [Text.join, ht, hc]

theorem ofText_toText (p : Path) : ofText p.toText = p := by
  obtain ⟨a, ns⟩ := p
  by_cases h : a = .here ∧ ns = []
  · obtain ⟨rfl, rfl⟩ := h
    rfl
  · simp only [toText, h, if_false]
    cases a with
    | here =>
        simp only [ofText, Anchor.toText, List.nil_append, takeWhile_slash_join,
          filterMap_splitOn_join]
        rfl
    | root =>
        simp only [ofText, Anchor.toText, List.cons_append, List.nil_append]
        congr 1
        · simp [takeWhile_slash_join, Anchor.ofSlashes]
        · simpa [Text.splitOn, Name.ofText?, Name.Proper] using filterMap_splitOn_join ns
    | doubleRoot =>
        simp only [ofText, Anchor.toText, List.cons_append, List.nil_append]
        congr 1
        · simp [takeWhile_slash_join, Anchor.ofSlashes]
        · simpa [Text.splitOn, Name.ofText?, Name.Proper] using filterMap_splitOn_join ns

end Path

end Folio

import Folio.Proofs.Listing
import Folio.Proofs.NullFree
import Folio.Proofs.Parallel

/-!
# The same files below another directory

Two file trees may hold the same below two directories, and anything elsewhere (`FileTree.Twin`).
Each place below the first directory has its counterpart below the second one (`Path.move`), at the
same names. **What stands at a place is told, listed, read and written alike at its counterpart.**

Only length can make a difference: the second directory may stand so deep that no system call
accepts the path of the counterpart any more. So the path is assumed to be accepted as far as its
length goes (`Path.Short`). Names fit below both directories or below none, since they are the same
there.
-/

namespace Folio

open FileTree

/-! ## Places below a directory -/

namespace Path

variable {root root' p q : Path} {names names' : List Name}

/-- The place with these names below a directory. -/
def under (root : Path) (names : List Name) : Path := ⟨root.anchor, root.names ++ names⟩

/-- The path leads to the directory or to a place below it. -/
def Inside (root p : Path) : Prop := ∃ names, Name.up ∉ names ∧ p = root.under names

/-- The counterpart of a place below another directory; a path that is not inside stays as it is. -/
def move (root root' p : Path) : Path := (graft? root p root').getD p

/-- The path is not refused for its length. -/
def Short (p : Path) : Prop := refusal? p ≠ some .tooLong

instance (p : Path) : Decidable p.Short := inferInstanceAs (Decidable (refusal? p ≠ some .tooLong))

theorem under_under (root : Path) (names names' : List Name) :
    (root.under names).under names' = root.under (names ++ names') := by
  rw [under, under, under, List.append_assoc]

theorem under_inj (h : root.under names = root.under names') : names = names' :=
  List.append_cancel_left (congrArg Path.names h)

theorem under_normal (h : root.Normal) (hplain : Name.up ∉ names) : (root.under names).Normal :=
  h.of_append hplain

theorem under_location (root : Path) (names : List Name) :
    (root.under names).location = names.reverse ++ root.location := by
  rw [location, under, List.reverse_append, location]

theorem parent_under (hne : names ≠ []) : (root.under names).parent = root.under names.dropLast := by
  rw [parent, under, List.dropLast_append_of_ne_nil hne, under]

theorem move_under (hroot' : root'.Normal) (hplain : Name.up ∉ names) :
    move root root' (root.under names) = root'.under names := by
  have hbelow : below? root (root.under names) = some names := by simp [below?, under]
  rw [move, graft?, hbelow, Option.map_some, (hroot'.of_append hplain).normalize_eq, Option.getD_some,
    under]

/-- A relative path is not moved. -/
theorem move_here (hroot : root.isAbsolute = true) (names : List Name) :
    move root root' ⟨.here, names⟩ = ⟨.here, names⟩ := by
  have hanchor : root.anchor ≠ .here := by simpa [isAbsolute] using hroot
  rw [move, graft?, below?, if_neg hanchor]
  rfl

theorem Inside.normal (h : Inside root p) (hroot : root.Normal) : p.Normal := by
  obtain ⟨names, hplain, rfl⟩ := h
  exact under_normal hroot hplain

/-- Different places inside have different counterparts. -/
theorem Inside.move_inj (h : Inside root p) (h' : Inside root q) (hroot' : root'.Normal)
    (hmove : move root root' p = move root root' q) : p = q := by
  obtain ⟨names, hplain, rfl⟩ := h
  obtain ⟨names', hplain', rfl⟩ := h'
  rw [move_under hroot' hplain, move_under hroot' hplain'] at hmove
  rw [under_inj hmove]

/-- The way from a place to another one does not depend on what they are below. -/
theorem relativeTo_under (base : Path) (hroot : root.Normal) (hplain : Name.up ∉ names)
    (hplain' : Name.up ∉ names') :
    relativeTo base (root.under names) (root.under names') = ⟨.here, offset names names'⟩ :=
  relativeTo_append base (under_normal hroot hplain) (under_normal hroot hplain') rfl rfl

theorem isPageName_under (hne : names ≠ []) :
    Document.isPageName (root'.under names) = Document.isPageName (root.under names) := by
  have hlast : (root'.under names).baseName = (root.under names).baseName := by
    rw [baseName, baseName, under, under, List.getLast?_append_of_ne_nil _ hne,
      List.getLast?_append_of_ne_nil _ hne]
  rw [Document.isPageName, Document.isPageName, hlast]

/-! ## Paths that are refused -/

/-- Whether a character stands in a path below a directory depends on the names below, as long as it
is in none of the directory. -/
theorem mem_toText_under {c : Char} (hslash : c ≠ '/') (hdot : c ≠ '.') (hroot : c ∉ root.toText) :
    c ∈ (root.under names).toText ↔ ∃ n ∈ names, c ∈ n.text := by
  rw [mem_toText hslash hdot, not_exists] at hroot
  rw [mem_toText hslash hdot, under]
  simp only [List.mem_append]
  constructor
  · rintro ⟨n, hn | hn, hc⟩
    · exact absurd ⟨hn, hc⟩ (hroot n)
    · exact ⟨n, hn, hc⟩
  · rintro ⟨n, hn, hc⟩
    exact ⟨n, .inr hn, hc⟩

theorem any_isHalf_of_accepted (h : refusal? p = none) : ∀ c ∈ p.toText, Half.isHalf c = false := by
  rw [refusal?] at h
  split at h
  · exact absurd h (by simp)
  · next hhalf => simpa using hhalf

theorem any_isHalf_under (hroot : refusal? root = none) (names : List Name) :
    (root.under names).toText.any Half.isHalf =
      names.any fun n => n.text.any Half.isHalf := by
  have hchars : ∀ c, Half.isHalf c = true →
      (c ∈ (root.under names).toText ↔ ∃ n ∈ names, c ∈ n.text) := by
    intro c hc
    refine mem_toText_under ?_ ?_ fun hmem => ?_
    · rintro rfl
      exact absurd hc (by decide)
    · rintro rfl
      exact absurd hc (by decide)
    · rw [any_isHalf_of_accepted hroot c hmem] at hc
      exact absurd hc Bool.false_ne_true
  rw [Bool.eq_iff_iff]
  simp only [List.any_eq_true]
  constructor
  · rintro ⟨c, hmem, hc⟩
    obtain ⟨n, hn, hcn⟩ := (hchars c hc).1 hmem
    exact ⟨n, hn, c, hcn, hc⟩
  · rintro ⟨n, hn, c, hcn, hc⟩
    exact ⟨c, (hchars c hc).2 ⟨n, hn, hcn⟩, hc⟩

theorem null_mem_under (hroot : refusal? root = none) (names : List Name) :
    '\x00' ∈ (root.under names).toText ↔ ∃ n ∈ names, '\x00' ∈ n.text :=
  mem_toText_under (by decide) (by decide) (refusal?_eq_none hroot).1

/-- **Paths to counterparts are refused alike**, but for their length. -/
theorem refusal?_under (hroot : refusal? root = none) (hroot' : refusal? root' = none)
    (hshort : (root.under names).Short) (hshort' : (root'.under names).Short) :
    refusal? (root'.under names) = refusal? (root.under names) := by
  rw [Short, refusal?] at hshort hshort'
  rw [refusal?, refusal?]
  simp only [any_isHalf_under hroot, any_isHalf_under hroot', null_mem_under hroot,
    null_mem_under hroot'] at hshort hshort' ⊢
  split
  · rfl
  · next hhalf =>
      rw [if_neg hhalf] at hshort hshort'
      split
      · rfl
      · next hnull =>
          rw [if_neg hnull] at hshort hshort'
          rw [if_neg fun hlong => hshort (if_pos hlong), if_neg fun hlong => hshort' (if_pos hlong)]

theorem Nameable.under (hroot : root.Nameable) (hroot' : root'.Nameable)
    (h : (root.under names).Nameable) (hshort' : (root'.under names).Short) :
    (root'.under names).Nameable := by
  have hshort : (root.under names).Short := by
    rw [Short, h.accepted]
    simp
  refine ⟨(refusal?_under hroot.accepted hroot'.accepted hshort hshort').trans h.accepted,
    fun n hn => ?_⟩
  rcases List.mem_append.1 hn with hn | hn
  · exact hroot'.short n hn
  · exact h.short n (List.mem_append_right _ hn)

end Path

/-! ## Trees with the same entries below two directories -/

namespace FileTree

open Folio.Path (under)

/-- Each entry of the first tree below a location stands at the same names in the second tree, below
another location. -/
def HeldBelow (top top' : Location) (t u : FileTree) : Prop :=
  ∀ k ∈ t.entries.keys, top <:+ k →
    u.entryAt (k.take (k.length - top.length) ++ top') = t.entryAt k

instance (top top' : Location) (t u : FileTree) : Decidable (HeldBelow top top' t u) :=
  inferInstanceAs (Decidable (∀ k ∈ t.entries.keys, top <:+ k →
    u.entryAt (k.take (k.length - top.length) ++ top') = t.entryAt k))

/-- **Trees can be compared entry by entry** below two directories. -/
theorem entryAt_of_heldBelow {top top' : Location} {t u : FileTree}
    (htop : u.entryAt top' = t.entryAt top) (h : HeldBelow top top' t u) (h' : HeldBelow top' top u t)
    (loc : Location) : u.entryAt (loc ++ top') = t.entryAt (loc ++ top) := by
  have hkey : ∀ {top top' : Location} {t u : FileTree}, HeldBelow top top' t u →
      loc ++ top ∈ t.entries.keys → u.entryAt (loc ++ top') = t.entryAt (loc ++ top) := by
    intro top top' t u h hk
    have heq := h _ hk (List.suffix_append _ _)
    rwa [List.length_append, Nat.add_sub_cancel, List.take_left] at heq
  cases loc with
  | nil => exact htop
  | cons n loc =>
      by_cases hk : n :: loc ++ top ∈ t.entries.keys
      · exact hkey h hk
      by_cases hk' : n :: loc ++ top' ∈ u.entries.keys
      · exact (hkey h' hk').symm
      -- Nothing stands at either place.
      rw [← OrderedMap.get?_isSome, Bool.not_eq_true, Option.isSome_eq_false_iff,
        Option.isNone_iff_eq_none] at hk hk'
      rw [List.cons_append, entryAt_cons, ← List.cons_append, hk', List.cons_append, entryAt_cons,
        ← List.cons_append, hk]

/-- The second tree holds below `root'` what the first one holds below `root`. There are no links in
them, and both directories are there. -/
structure Twin (root root' : Path) (t u : FileTree) : Prop where
  normal : root.Normal
  normal' : root'.Normal
  linkFree : t.LinkFree
  linkFree' : u.LinkFree
  directory : t.isDirectory? root = .ok true
  directory' : u.isDirectory? root' = .ok true
  entry : ∀ loc, u.entryAt (loc ++ root'.location) = t.entryAt (loc ++ root.location)

namespace Twin

variable {root root' : Path} {t u : FileTree} {names : List Name}

theorem symm (h : Twin root root' t u) : Twin root' root u t :=
  ⟨h.normal', h.normal, h.linkFree', h.linkFree, h.directory', h.directory,
    fun loc => (h.entry loc).symm⟩

theorem nameable (h : Twin root root' t u) : root.Nameable := by
  obtain ⟨loc, hres, -⟩ := status?_eq_some_iff.1 (isDirectory?_eq_true_iff.1 h.directory)
  exact nameable_of_resolve h.linkFree h.normal hres

theorem entryAt_root (h : Twin root root' t u) : t.entryAt root.location = some .directory :=
  entryAt_of_status? h.linkFree h.normal (isDirectory?_eq_true_iff.1 h.directory)

theorem entryAt_under (h : Twin root root' t u) (names : List Name) :
    u.entryAt (root'.under names).location = t.entryAt (root.under names).location := by
  rw [Path.under_location, Path.under_location, h.entry]

/-! ## Questions -/

/-- Whether an answer can be given depends on what stands below the directory. -/
theorem answers (h : Twin root root' t u) (hplain : Name.up ∉ names)
    (hanswers : t.Answers (root.under names)) (hshort : (root'.under names).Short) :
    (root.under names).Short ∧ u.Answers (root'.under names) := by
  have hnormal := Path.under_normal h.normal hplain
  have hnormal' := Path.under_normal h.normal' hplain
  rw [answers_iff, resolve] at hanswers
  have hshort₀ : (root.under names).Short := by
    intro hlong
    rw [hlong] at hanswers
    exact hanswers rfl
  refine ⟨hshort₀, ?_⟩
  rw [answers_iff, resolve,
    Path.refusal?_under h.nameable.accepted h.symm.nameable.accepted hshort₀ hshort]
  cases hrefusal : refusal? (root.under names) with
  | some f => simpa only [hrefusal] using hanswers
  | none =>
      simp only [hrefusal, namesOf, if_pos hnormal.absolute] at hanswers
      simp only [namesOf, if_pos hnormal'.absolute]
      -- Both ways lead to the directory first, and then by the same names.
      obtain ⟨jump, hjump⟩ := exists_walk_eq t linkLimit
      obtain ⟨jump', hjump'⟩ := exists_walk_eq u linkLimit
      have hroot : (t.entryAt (root.names.reverse ++ [])).isSome = true := by
        rw [List.append_nil, show root.names.reverse = root.location from rfl, h.entryAt_root]
        rfl
      have hroot' : (u.entryAt (root'.names.reverse ++ [])).isSome = true := by
        rw [List.append_nil, show root'.names.reverse = root'.location from rfl, h.symm.entryAt_root]
        rfl
      rw [hjump, under, follow_append h.linkFree h.normal.plain h.nameable.short hroot] at hanswers
      rw [hjump', under, follow_append h.linkFree' h.normal'.plain h.symm.nameable.short hroot']
      rw [List.append_nil] at hanswers ⊢
      have hdirs : ∀ loc, u.entryAt (loc ++ root'.location) = some .directory →
          t.entryAt (loc ++ root.location) = some .directory := fun loc hdir =>
        (h.entry loc).symm.trans hdir
      show u.follow jump' false ([] ++ root'.location) names ≠ .error .tooLong
      exact follow_ne_tooLong h.linkFree' hdirs hplain hanswers

/-- **What stands at a place stands at its counterpart.** -/
theorem status?_eq (h : Twin root root' t u) (hplain : Name.up ∉ names) {e : Option Entry}
    (hstatus : t.status? (root.under names) = .ok e) (hshort : (root'.under names).Short) :
    u.status? (root'.under names) = .ok e := by
  have hanswers : t.Answers (root.under names) := by rw [Answers, hstatus]; rfl
  obtain ⟨hshort₀, hanswers'⟩ := h.answers hplain hanswers hshort
  rw [FileTree.status?_eq h.linkFree (Path.under_normal h.normal hplain) hanswers] at hstatus
  rw [FileTree.status?_eq h.linkFree' (Path.under_normal h.normal' hplain) hanswers',
    Path.refusal?_under h.nameable.accepted h.symm.nameable.accepted hshort₀ hshort,
    h.entryAt_under, hstatus]

/-- A question about what stands at a place has the same answer at its counterpart. -/
theorem map_status?_eq (h : Twin root root' t u) (hplain : Name.up ∉ names) {α : Type}
    {g : Option Entry → α} {a : α} (ha : (t.status? (root.under names)).map g = .ok a)
    (hshort : (root'.under names).Short) : (u.status? (root'.under names)).map g = .ok a := by
  obtain ⟨e, he, rfl⟩ := exists_of_map_eq_ok ha
  rw [h.status?_eq hplain he hshort]
  rfl

/-- **A directory holds the same names.** -/
theorem list_eq (h : Twin root root' t u) (hplain : Name.up ∉ names)
    (hdir : t.isDirectory? (root.under names) = .ok true) (hshort : (root'.under names).Short) :
    u.list (root'.under names) = t.list (root.under names) := by
  rw [list_of_isDirectory? h.linkFree (Path.under_normal h.normal hplain) hdir,
    list_of_isDirectory? h.linkFree' (Path.under_normal h.normal' hplain)
      (h.map_status?_eq hplain hdir hshort)]
  refine congrArg Except.ok (namesIn_congr fun n => ?_)
  rw [Path.under_location, Path.under_location, ← List.cons_append, ← List.cons_append, h.entry]

/-- Whether there is a document that may be a page. A path of no names is that of the directory, and
this one may be called like a document. -/
theorem isPage?_eq (h : Twin root root' t u) (hplain : Name.up ∉ names) {a : Bool}
    (ha : Document.isPage? t (root.under names) = .ok a)
    (hshort : Document.isPageName (root.under names) = true → (root'.under names).Short) :
    Document.isPage? u (root'.under names) = .ok a := by
  cases names with
  | nil =>
      have hroot : ∀ root : Path, root.under [] = root := fun root => by
        rw [under, List.append_nil]
      have hfalse : ∀ {t : FileTree} {p : Path}, t.isDirectory? p = .ok true →
          Document.isPage? t p = .ok false := by
        intro t p hdir
        rw [Document.isPage?, isFile?, isDirectory?_eq_true_iff.1 hdir]
        split <;> rfl
      rw [hroot] at ha ⊢
      rw [hfalse h.directory] at ha
      rw [hfalse h.directory', ha]
  | cons n names =>
      rw [Document.isPage?] at ha ⊢
      rw [Path.isPageName_under (List.cons_ne_nil n names)]
      split at ha
      · next hname =>
          rw [if_pos hname]
          exact h.map_status?_eq hplain ha (hshort hname)
      · next hname => rw [if_neg hname, ha]

/-- **A document has the same lines.** -/
theorem read_eq (h : Twin root root' t u) (hplain : Name.up ∉ names) {encoding : Text}
    {lines : List Text} (hread : Document.read t (root.under names) encoding = .ok lines)
    (hshort : (root'.under names).Short) :
    Document.read u (root'.under names) encoding = .ok lines := by
  obtain ⟨hnull, content, hcontent, hlines⟩ := Document.read_eq_ok_iff.1 hread
  refine Document.read_eq_ok_iff.2 ⟨hnull, content, ?_, hlines⟩
  rw [readFile_eq_ok_iff] at hcontent ⊢
  exact h.status?_eq hplain hcontent hshort

/-! ## Writing -/

/-- **There is room for a file** at a counterpart if there was room at the place. -/
theorem room (h : Twin root root' t u) (hroom : Room t (root.under names)) :
    Room u (root'.under names) := by
  refine ⟨fun loc hloc hne content hfile => ?_, ?_⟩
  · rw [Path.under_location] at hloc hne
    have hbelow : root'.location <:+ names.reverse ++ root'.location := List.suffix_append _ _
    rcases List.suffix_or_suffix_of_suffix hloc hbelow with hsuffix | ⟨top, rfl⟩
    · -- Above the directory there are directories.
      have hdir := directory_above h.symm.entryAt_root hsuffix
      exact absurd (hdir.symm.trans hfile) (by simp)
    · rw [List.suffix_append_self_iff] at hloc
      rw [h.entry] at hfile
      refine hroom.above (top ++ root.location) ?_ (fun heq => hne ?_) content hfile
      · rwa [Path.under_location, List.suffix_append_self_iff]
      · rw [Path.under_location] at heq
        rw [List.append_cancel_right heq]
  · rw [h.entryAt_under]
    exact hroom.here

theorem wrote_under (h : Twin root root' t u) (names : List Name) (bytes : List UInt8)
    (loc : Location) :
    u.wrote (root'.under names) bytes (loc ++ root'.location) =
      t.wrote (root.under names) bytes (loc ++ root.location) := by
  simp only [FileTree.wrote, Path.under_location, List.append_cancel_right_eq,
    List.suffix_append_self_iff, h.entry]

/-- A file below the directory leaves it a directory. -/
theorem directory_of_wrote (h : Twin root root' t u) (hroom : Room t (root.under names))
    {bytes : List UInt8} {w : FileTree}
    (hw : ∀ loc, w.entryAt loc = t.wrote (root.under names) bytes loc) :
    w.LinkFree ∧ w.isDirectory? root = .ok true := by
  have hlinkFree : w.LinkFree := by
    intro loc target hlink
    rw [hw, FileTree.wrote] at hlink
    split at hlink
    · exact absurd hlink (by simp)
    · split at hlink
      · exact absurd hlink (by simp)
      · exact h.linkFree loc target hlink
  have hne : root.location ≠ (root.under names).location := by
    intro heq
    exact hroom.here (heq ▸ h.entryAt_root)
  have hdir : w.entryAt root.location = some .directory := by
    rw [hw, FileTree.wrote, if_neg hne, if_pos]
    rw [Path.under_location]
    exact List.suffix_append _ _
  exact ⟨hlinkFree, isDirectory?_of_entryAt hlinkFree h.normal h.nameable hdir⟩

/-- **The same bytes at counterparts** leave the trees as alike as they were. -/
theorem of_wrote {t' u' : FileTree} (h : Twin root root' t u) (hroom : Room t (root.under names))
    {bytes : List UInt8} (ht' : ∀ loc, t'.entryAt loc = t.wrote (root.under names) bytes loc)
    (hu' : ∀ loc, u'.entryAt loc = u.wrote (root'.under names) bytes loc) :
    Twin root root' t' u' := by
  obtain ⟨hlinkFree, hdir⟩ := h.directory_of_wrote hroom ht'
  obtain ⟨hlinkFree', hdir'⟩ := h.symm.directory_of_wrote (h.room hroom) hu'
  refine ⟨h.normal, h.normal', hlinkFree, hlinkFree', hdir, hdir', fun loc => ?_⟩
  rw [ht', hu', h.wrote_under]

end Twin

end FileTree

end Folio

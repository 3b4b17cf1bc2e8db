import Folio.Proofs.Retained

/-!
# Where writing succeeds

A document can be written when its lines have bytes, the names of its path fit, and **nothing is in
the way**: no file stands above its place, and no directory at it (`FileTree.Room`). What stands
there afterwards is the file, with directories above it and everything else as it was (`wrote`).

**Theorem (`Document.write_made`).** These conditions suffice. Lines and path of a document that has
been written anywhere fulfil the first two (`Document.encodes_of_write`, `nameable_of_write`), and
there is room in every file tree that has nothing but what some tree with that file has
(`Keeps.room`). So a document that one run has written, another one can write.
-/

namespace Folio

namespace FileTree

variable {u w : FileTree} {p : Path} {loc : Location}

/-! ## Room for a file -/

/-- Nothing is in the way of a file at the path. -/
structure Room (u : FileTree) (p : Path) : Prop where
  above : ∀ loc, loc <:+ p.location → loc ≠ p.location → ∀ content,
    u.entryAt loc ≠ some (.file content)
  here : u.entryAt p.location ≠ some .directory

/-- What stands at a location when a file with these bytes has been written at the path. -/
def wrote (u : FileTree) (p : Path) (bytes : List UInt8) (loc : Location) : Option Entry :=
  if loc = p.location then some (.file bytes)
  else if loc <:+ p.location then some .directory
  else u.entryAt loc

theorem suffix_iff_of_cons {n : Name} {top : Location} :
    loc <:+ top ↔ loc <:+ n :: top ∧ loc ≠ n :: top := by
  constructor
  · intro h
    refine ⟨h.trans (List.suffix_cons n top), ?_⟩
    rintro rfl
    have hlength := h.length_le
    rw [List.length_cons] at hlength
    omega
  · rintro ⟨h, hne⟩
    exact (List.suffix_cons_iff.1 h).resolve_left hne

theorem directory_above {top : Location} (hdir : u.entryAt loc = some .directory)
    (htop : top <:+ loc) : u.entryAt top = some .directory := by
  obtain ⟨names, rfl⟩ := htop
  by_cases hnames : names = []
  · rwa [hnames] at hdir
  · exact directory_of_entryAt hnames (by simp [hdir])

theorem directory_above_file {content : List UInt8} {top : Location}
    (hfile : u.entryAt loc = some (.file content)) (htop : top <:+ loc) (hne : top ≠ loc) :
    u.entryAt top = some .directory := by
  obtain ⟨names, rfl⟩ := htop
  by_cases hnames : names = []
  · exact absurd (by simp [hnames]) hne
  · exact directory_of_entryAt hnames (by simp [hfile])

/-- Nothing stands below a place where nothing stands. -/
theorem entryAt_below_none {top : Location} (hnone : u.entryAt top = none) (htop : top <:+ loc) :
    u.entryAt loc = none := by
  obtain ⟨names, rfl⟩ := htop
  cases hthere : u.entryAt (names ++ top) with
  | none => rfl
  | some e =>
      by_cases hnames : names = []
      · rw [hnames, List.nil_append, hnone] at hthere
        exact hthere.symm
      · have hsome : (u.entryAt (names ++ top)).isSome = true := by simp [hthere]
        exact absurd (hnone.symm.trans (directory_of_entryAt hnames hsome)) (by simp)

/-- **There is room** in a tree that has nothing but what a tree with the file has. -/
theorem Keeps.room (h : Keeps u w) {content : List UInt8}
    (hfile : w.entryAt p.location = some (.file content)) : Room u p := by
  constructor
  · intro loc hloc hne content' hthere
    obtain ⟨content'', hw⟩ := h.file hthere
    rw [directory_above_file hfile hloc hne] at hw
    exact absurd hw (by simp)
  · intro hdir
    exact absurd ((h.directory hdir).symm.trans hfile) (by simp)

theorem Room.location_ne_nil (h : Room u p) : p.location ≠ [] := by
  intro hroot
  exact h.here (by rw [hroot]; rfl)

/-! ## Making directories -/

theorem LinkFree.of_directories (hu : u.LinkFree) {up : Location}
    (h : ∀ loc, w.entryAt loc = if loc <:+ up then some .directory else u.entryAt loc) :
    w.LinkFree := by
  intro loc target hlink
  rw [h] at hlink
  split at hlink
  · exact absurd hlink (by simp)
  · exact hu loc target hlink

theorem add_of_none {n : Name} {e : Entry} (hdir : u.entryAt loc = some .directory)
    (hnone : u.entryAt (n :: loc) = none) : ∃ w, u.add n loc e = .ok w := by
  unfold add
  rw [dif_pos hdir]
  split
  · exact ⟨_, rfl⟩
  · next hsome => exact absurd (hnone.symm.trans hsome) (by simp)

theorem add_of_some {n : Name} {e e' : Entry} (hsome : u.entryAt (n :: loc) = some e') :
    u.add n loc e = .error .alreadyExists := by
  unfold add
  rw [dif_pos (entryAt_parent hsome)]
  split
  · next hnone => exact absurd (hsome.symm.trans hnone) (by simp)
  · rfl

section Up

variable {anchor : Anchor} {n : Name} {up : List Name}

theorem makeDirectory_eq (hfits : (⟨anchor, (n :: up).reverse⟩ : Path).Nameable)
    (ha : anchor ≠ .here) (hn : n ≠ .up) :
    u.makeDirectory ⟨anchor, (n :: up).reverse⟩ =
      match u.walk linkLimit false [] up.reverse with
      | .error f => .error f
      | .ok (.free _ _) => .error .missing
      | .ok (.entry loc) =>
          if u.entryAt loc ≠ some .directory then .error .notDirectory
          else u.add n loc .directory := by
  have hshort : n.text.byteLength ≤ nameLimit := hfits.short n (by simp)
  have hparent : (⟨anchor, (n :: up).reverse⟩ : Path).parent = ⟨anchor, up.reverse⟩ := by
    simp [Path.parent]
  have hroot : (⟨anchor, up.reverse⟩ : Path).isAbsolute = true := by
    simpa [Path.isAbsolute] using ha
  have hlast : (n :: up).reverse.getLast? = some n := by simp
  have hfit : ¬ nameLimit < n.text.byteLength := by omega
  rw [makeDirectory, make, hfits.accepted]
  simp only [hlast, hparent, namesOf, hroot, if_true]
  cases u.walk linkLimit false [] up.reverse with
  | error f => rfl
  | ok place =>
      cases place with
      | free loc m => rfl
      | entry loc => simp only [hn, hfit, if_false]

/-- **Making one directory**: it is new in a directory, there already, or without a directory. -/
theorem makeDirectory_cases (hu : u.LinkFree) (ha : anchor ≠ .here) (hplain : Name.up ∉ n :: up)
    (hfits : (⟨anchor, (n :: up).reverse⟩ : Path).Nameable)
    (hway : ∀ loc, loc <:+ n :: up → ∀ content, u.entryAt loc ≠ some (.file content)) :
    (u.entryAt up = some .directory ∧ u.entryAt (n :: up) = none ∧
      ∃ w, u.makeDirectory ⟨anchor, (n :: up).reverse⟩ = .ok w) ∨
    (u.entryAt (n :: up) = some .directory ∧
      u.makeDirectory ⟨anchor, (n :: up).reverse⟩ = .error .alreadyExists) ∨
    (u.entryAt up = none ∧
      u.makeDirectory ⟨anchor, (n :: up).reverse⟩ = .error .missing) := by
  rw [List.mem_cons, not_or] at hplain
  have hplain' : Name.up ∉ up.reverse := by simpa using hplain.2
  have hshort : ∀ m ∈ up.reverse, m.text.byteLength ≤ nameLimit := fun m hm =>
    hfits.short m (by simp [List.mem_reverse.1 hm])
  rw [makeDirectory_eq hfits ha (Ne.symm hplain.1)]
  by_cases hdir : u.entryAt up = some .directory
  · have hwalk : u.walk linkLimit false [] up.reverse = .ok (.entry up) := by
      have h := walk_of_entryAt hu hplain' hshort (by simp [hdir]) linkLimit
      rwa [List.reverse_reverse] at h
    simp only [hwalk, hdir, ne_eq, not_true, if_false]
    cases hentry : u.entryAt (n :: up) with
    | none => exact .inl ⟨trivial, rfl, add_of_none hdir hentry⟩
    | some e =>
        cases e with
        | link target => exact absurd hentry (hu _ target)
        | file content => exact absurd hentry (hway _ List.suffix_rfl content)
        | directory => exact .inr (.inl ⟨rfl, add_of_some hentry⟩)
  · have hnone : u.entryAt up = none := by
      cases hentry : u.entryAt up with
      | none => rfl
      | some e =>
          cases e with
          | link target => exact absurd hentry (hu _ target)
          | file content => exact absurd hentry (hway _ (List.suffix_cons n up) content)
          | directory => exact absurd hentry hdir
    obtain ⟨jump, hwalk⟩ := u.exists_walk_eq linkLimit
    have hend : u.entryAt (up.reverse.reverse ++ []) = none := by simpa using hnone
    have hclear : ∀ there, there <:+ up.reverse.reverse ++ [] → ∀ content,
        u.entryAt there ≠ some (.file content) := fun there hthere =>
      hway there (.trans (by simpa using hthere) (List.suffix_cons n up))
    have hfollow : (∃ top m, u.follow jump false [] up.reverse = .ok (.free top m)) ∨
        u.follow jump false [] up.reverse = .error .missing :=
      follow_of_none hu hplain' hshort hclear rfl hend
    rw [hwalk]
    rcases hfollow with ⟨top, m, hfree⟩ | hmissing
    · rw [hfree]
      exact .inr (.inr ⟨hnone, rfl⟩)
    · rw [hmissing]
      exact .inr (.inr ⟨hnone, rfl⟩)

/-- The new directory stands in others, and so do those above it. -/
theorem entryAt_of_makeDirectory (hu : u.LinkFree) (ha : anchor ≠ .here)
    (hplain : Name.up ∉ n :: up) (hdir : u.entryAt up = some .directory)
    (hmade : u.makeDirectory ⟨anchor, (n :: up).reverse⟩ = .ok w) (loc : Location) :
    w.entryAt loc = if loc <:+ n :: up then some .directory else u.entryAt loc := by
  have hnormal : (⟨anchor, (n :: up).reverse⟩ : Path).Normal :=
    ⟨by simpa [Path.isAbsolute] using ha, fun h => hplain (List.mem_reverse.1 h)⟩
  have hlocation : (⟨anchor, (n :: up).reverse⟩ : Path).location = n :: up :=
    List.reverse_reverse _
  rw [(makeDirectory_eq_ok hu hnormal hmade).2, hlocation]
  by_cases hlast : loc = n :: up
  · simp [hlast]
  · rw [if_neg hlast]
    split
    · next hloc => exact directory_above hdir ((List.suffix_cons_iff.1 hloc).resolve_left hlast)
    · rfl

/-- Nothing stands below what is missing, so a directory can be made there when those above it have
been made. -/
theorem makeDirectory_of_missing (hu : u.LinkFree) (ha : anchor ≠ .here)
    (hplain : Name.up ∉ n :: up) (hfits : (⟨anchor, (n :: up).reverse⟩ : Path).Nameable)
    (hway : ∀ loc, loc <:+ n :: up → ∀ content, u.entryAt loc ≠ some (.file content))
    (hmissing : u.entryAt up = none)
    (hw : ∀ loc, w.entryAt loc = if loc <:+ up then some .directory else u.entryAt loc) :
    ∃ w', w.makeDirectory ⟨anchor, (n :: up).reverse⟩ = .ok w' ∧
      ∀ loc, w'.entryAt loc = if loc <:+ n :: up then some .directory else u.entryAt loc := by
  have hfree : w.LinkFree := hu.of_directories hw
  have hway' : ∀ loc, loc <:+ n :: up → ∀ content, w.entryAt loc ≠ some (.file content) := by
    intro loc hloc content hfile
    rw [hw] at hfile
    split at hfile
    · exact absurd hfile (by simp)
    · exact hway loc hloc content hfile
  have hdir : w.entryAt up = some .directory := by rw [hw, if_pos List.suffix_rfl]
  rcases makeDirectory_cases hfree ha hplain hfits hway' with
    ⟨-, -, w', hmade⟩ | ⟨hthere, -⟩ | ⟨hgone, -⟩
  · refine ⟨w', hmade, fun loc => ?_⟩
    rw [entryAt_of_makeDirectory hfree ha hplain hdir hmade]
    split
    · rfl
    · next hloc => rw [hw, if_neg fun h => hloc (h.trans (List.suffix_cons n up))]
  · have hlonger : ¬ n :: up <:+ up := fun h => (suffix_iff_of_cons.1 h).2 rfl
    rw [hw, if_neg hlonger] at hthere
    exact absurd (hmissing.symm.trans (entryAt_parent hthere)) (by simp)
  · exact absurd (hdir.symm.trans hgone) (by simp)

theorem settle_of_directory (hu : u.LinkFree) (ha : anchor ≠ .here) (hplain : Name.up ∉ up)
    (hfits : (⟨anchor, up.reverse⟩ : Path).Nameable) (hdir : u.entryAt up = some .directory)
    (f : Fault) : u.settle ⟨anchor, up.reverse⟩ f = .ok () := by
  have hnormal : (⟨anchor, up.reverse⟩ : Path).Normal :=
    ⟨by simpa [Path.isAbsolute] using ha, fun h => hplain (List.mem_reverse.1 h)⟩
  have hlocation : (⟨anchor, up.reverse⟩ : Path).location = up := List.reverse_reverse up
  rw [settle, isDirectory?_of_entryAt hu hnormal hfits (by rwa [hlocation])]

end Up

/-- **Directories can be made** where no file is in the way. The names are those that
`makeDirectoriesUp` goes up, so the induction is on them. -/
theorem makeDirectoriesUp_made (hu : u.LinkFree) {anchor : Anchor} (ha : anchor ≠ .here)
    {up : List Name} (hplain : Name.up ∉ up) (hfits : (⟨anchor, up.reverse⟩ : Path).Nameable)
    (hway : ∀ loc, loc <:+ up → ∀ content, u.entryAt loc ≠ some (.file content)) :
    ∃ w, makeDirectoriesUp anchor up u = (w, .ok ()) ∧
      ∀ loc, w.entryAt loc = if loc <:+ up then some .directory else u.entryAt loc := by
  induction up with
  | nil =>
      have hexists : u.makeDirectory ⟨anchor, []⟩ = .error .alreadyExists := by
        have haccepted : refusal? ⟨anchor, []⟩ = none := hfits.accepted
        rw [makeDirectory, make, haccepted]
        rfl
      have hthere : u.settle ⟨anchor, []⟩ .alreadyExists = .ok () :=
        settle_of_directory hu ha hplain hfits rfl _
      refine ⟨u, by rw [makeDirectoriesUp, hexists]; simp only [hthere], fun loc => ?_⟩
      split
      · next hloc =>
          rw [List.suffix_nil.1 hloc]
          rfl
      · rfl
  | cons n up ih =>
      have hroot : (⟨anchor, up.reverse⟩ : Path).isAbsolute = true := by
        simpa [Path.isAbsolute] using ha
      have hfits' : (⟨anchor, up.reverse⟩ : Path).Nameable :=
        hfits.of_isPrefix hroot rfl (by simp)
      have hplain' : Name.up ∉ up := fun h => hplain (List.mem_cons_of_mem n h)
      rw [makeDirectoriesUp]
      rcases makeDirectory_cases hu ha hplain hfits hway with
        ⟨hdir, -, w, hmade⟩ | ⟨hdir, hexists⟩ | ⟨hnone, hmissing⟩
      · exact ⟨w, by simp only [hmade], entryAt_of_makeDirectory hu ha hplain hdir hmade⟩
      · simp only [hexists, settle_of_directory hu ha hplain hfits hdir]
        refine ⟨u, rfl, fun loc => ?_⟩
        split
        · next hloc => exact directory_above hdir hloc
        · rfl
      · obtain ⟨w, hmade, hentries⟩ := ih hplain' hfits' fun loc hloc =>
          hway loc (hloc.trans (List.suffix_cons n up))
        obtain ⟨w', hmade', hentries'⟩ :=
          makeDirectory_of_missing hu ha hplain hfits hway hnone hentries
        exact ⟨w', by simp only [hmissing, hmade, hmade'], hentries'⟩

/-! ## Making the file -/

theorem writeFile_made (hu : u.LinkFree) (hp : p.Normal) (hfits : p.Nameable)
    (hdir : ∀ loc, loc <:+ p.location → loc ≠ p.location → u.entryAt loc = some .directory)
    (hfree : u.entryAt p.location ≠ some .directory) (content : List UInt8) :
    ∃ w, u.writeFile p content = .ok w ∧
      ∀ loc, w.entryAt loc = if loc = p.location then some (.file content) else u.entryAt loc := by
  cases hlocation : p.location with
  | nil => exact absurd (by rw [hlocation]; rfl) hfree
  | cons n loc =>
      have hparent : u.entryAt loc = some .directory :=
        hdir loc (by rw [hlocation]; exact List.suffix_cons n loc) (by rw [hlocation]; simp)
      cases hentry : u.entryAt (n :: loc) with
      | none =>
          have hnone : u.entryAt p.location = none := by rw [hlocation, hentry]
          obtain ⟨w, hadd⟩ := add_of_none (e := .file content) hparent hentry
          refine ⟨w, ?_, (add_eq_ok hadd).2⟩
          rw [writeFile, resolve_of_free hu hp hfits hlocation hnone hparent]
          exact hadd
      | some e =>
          have hres : u.resolve p = .ok (.entry (n :: loc)) := by
            rw [← hlocation]
            exact resolve_of_entryAt hu hp hfits (by simp [hlocation, hentry])
          cases e with
          | link target => exact absurd hentry (hu _ target)
          | directory => exact absurd (by rw [hlocation, hentry]) hfree
          | file old =>
              refine ⟨u.put n loc (.file content) hparent (by simp [hentry]), ?_, ?_⟩
              · unfold writeFile
                rw [hres]
                simp only
                split
                · rfl
                · next hdir => exact absurd (hentry.symm.trans hdir) (by simp)
                · next hno _ => exact absurd hentry (hno old)
              · exact entryAt_put u n loc _ _ _

/-- A path at which a file has been written is one whose names fit. -/
theorem nameable_of_writeFile (hu : u.LinkFree) (hp : p.Normal) {content : List UInt8}
    (h : u.writeFile p content = .ok w) : p.Nameable := by
  obtain ⟨place, hres, -⟩ := writeFile_eq_ok h
  exact nameable_of_resolve hu hp hres

end FileTree

namespace Document

open FileTree

variable {u w : FileTree} {p : Path} {encoding : Text} {lines : List Text} {bytes : List UInt8}

/-- **Lines that have been written** have bytes, and the path is one whose names fit. -/
theorem encodes_of_write (hu : u.LinkFree) (hp : p.Normal)
    (h : (write u p encoding lines).2 = .ok ()) :
    p.Nameable ∧ ∃ bytes, Encodes encoding lines bytes := by
  have hdirs := makeDirectories_changes hu hp.parent (q := p.parent) List.suffix_rfl
  obtain ⟨u', bytes, hmade, hlines, hwrite⟩ := write_eq_ok_iff.1 (Prod.ext rfl h)
  rw [hmade] at hdirs
  exact ⟨nameable_of_writeFile (hu.of_changes hdirs) hp hwrite, bytes, hlines⟩

/-- **What has been written can be read**: the file holds the bytes of the lines. -/
theorem readFile_of_write (h : (write u p encoding lines).2 = .ok ()) :
    ∃ bytes, Encodes encoding lines bytes ∧
      (write u p encoding lines).1.readFile p = .ok bytes := by
  obtain ⟨u', bytes, -, hlines, hwrite⟩ := write_eq_ok_iff.1 (Prod.ext rfl h)
  exact ⟨bytes, hlines, readFile_of_writeFile hwrite⟩

/-- **Where there is room, a document can be written**, and nothing but the file and the
directories above it is made. -/
theorem write_made (hu : u.LinkFree) (hp : p.Normal) (hfits : p.Nameable) (hroom : Room u p)
    (hlines : Encodes encoding lines bytes) :
    ∃ w, write u p encoding lines = (w, .ok ()) ∧ ∀ loc, w.entryAt loc = wrote u p bytes loc := by
  have hanchor : p.anchor ≠ .here := by simpa [Path.isAbsolute] using hp.absolute
  obtain ⟨n, top, hlocation⟩ := List.exists_cons_of_ne_nil hroom.location_ne_nil
  have hparent : p.parent.names.reverse = top := by
    rw [Path.location] at hlocation
    rw [Path.parent, ← List.tail_reverse, hlocation, List.tail_cons]
  have habove : ∀ loc, loc <:+ top ↔ loc <:+ p.location ∧ loc ≠ p.location := fun loc => by
    rw [hlocation]
    exact suffix_iff_of_cons
  have hfits' : (⟨p.anchor, top.reverse⟩ : Path).Nameable := by
    rw [← hparent, List.reverse_reverse]
    exact hfits.of_isPrefix hp.absolute rfl (List.dropLast_prefix _)
  obtain ⟨u₁, hmade, hentries⟩ := makeDirectoriesUp_made hu hanchor
    (hparent ▸ by simpa using hp.parent.plain) hfits' fun loc hloc =>
      hroom.above loc ((habove loc).1 hloc).1 ((habove loc).1 hloc).2
  have hu₁ : u₁.LinkFree := hu.of_directories hentries
  have hfree : u₁.entryAt p.location ≠ some .directory := by
    rw [hentries, if_neg fun h => ((habove _).1 h).2 rfl]
    exact hroom.here
  obtain ⟨w, hwrite, hfile⟩ := writeFile_made hu₁ hp hfits (fun loc hloc hne => by
    rw [hentries, if_pos ((habove loc).2 ⟨hloc, hne⟩)]) hfree bytes
  refine ⟨w, ?_, fun loc => ?_⟩
  · rw [write, makeDirectories, hparent]
    have hanchor' : p.parent.anchor = p.anchor := rfl
    rw [hanchor', hmade]
    simp only [hlines.1, if_false]
    exact fill_of_encodes hlines hwrite
  · rw [hfile, hentries, wrote]
    by_cases hlast : loc = p.location
    · simp [hlast]
    · simp [hlast, habove]

end Document

end Folio

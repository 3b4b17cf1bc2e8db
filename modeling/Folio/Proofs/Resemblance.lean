import Folio.Proofs.Listing

/-!
# File trees that differ in the bytes of files only

Two file trees may have the same directories, the same links and files at the same locations, with
bytes that are not quite the same (`FileTree.Resembles`). A relation for each location says how they
may differ there. **What a path leads to, whether it exists and what a directory holds cannot tell
such trees apart.** Only reading can.

Operations that change file trees do the same in both, and leave trees that resemble each other: the
same directories are made, and writing the same bytes to a file succeeds or fails in the same way
(`Document.write_resembles`). For that, files with the same bytes must be allowed at the location
that is opened (`Document.opening`); and what is written there is alike from then on (`Rewritten`).
Links are followed in all of this.
-/

namespace Folio

/-- The same entry, or none, or two files whose bytes differ in this way. -/
def Entry.Similar (rel : List UInt8 → List UInt8 → Prop) (e e' : Option Entry) : Prop :=
  (e' = e ∧ ∀ content, e ≠ some (.file content)) ∨
    ∃ content content', e = some (.file content) ∧ e' = some (.file content') ∧ rel content content'

namespace FileTree

open Entry (Similar)

variable {rel : Location → List UInt8 → List UInt8 → Prop} {t u : FileTree} {p : Path}

/-- Two trees with the same entries but for the bytes of files, which differ as the relation of
their location says. -/
structure Resembles (rel : Location → List UInt8 → List UInt8 → Prop) (t u : FileTree) : Prop where
  cwd : u.cwd = t.cwd
  entry : ∀ loc, Similar (rel loc) (t.entryAt loc) (u.entryAt loc)

/-- Files differ as the relation says, but not where something has been written. -/
def Rewritten (opened : List Location) (rel : Location → List UInt8 → List UInt8 → Prop)
    (loc : Location) (content content' : List UInt8) : Prop :=
  rel loc content content' ∧ (loc ∈ opened → content' = content)

/-- Both fail in the same way, or both lead to trees that resemble each other. -/
def Both (rel : Location → List UInt8 → List UInt8 → Prop) (r r' : Except Fault FileTree) : Prop :=
  (∃ f, r = .error f ∧ r' = .error f) ∨ ∃ t u, r = .ok t ∧ r' = .ok u ∧ Resembles rel t u

theorem Both.error (f : Fault) : Both rel (.error f) (.error f) := .inl ⟨f, rfl, rfl⟩

namespace Resembles

/-! ## Where paths lead -/

theorem directory_iff (h : Resembles rel t u) {loc : Location} :
    u.entryAt loc = some .directory ↔ t.entryAt loc = some .directory := by
  rcases h.entry loc with ⟨heq, -⟩ | ⟨content, content', hfile, hfile', -⟩
  · rw [heq]
  · simp [hfile, hfile']

theorem follow_eq (h : Resembles rel t u)
    {jump jump' : Bool → Location → List Name → Except Fault Place} (hjump : jump' = jump)
    (toDirectory : Bool) (loc : Location) (names : List Name) :
    u.follow jump' toDirectory loc names = t.follow jump toDirectory loc names := by
  subst hjump
  induction names generalizing loc with
  | nil => simp only [follow, ne_eq, h.directory_iff]
  | cons n names ih =>
      rw [follow, follow]
      simp only [ne_eq, h.directory_iff, ih]
      rcases h.entry (n :: loc) with ⟨heq, -⟩ | ⟨content, content', hfile, hfile', -⟩
      · rw [heq]
      · rw [hfile, hfile']

theorem walk_eq (h : Resembles rel t u) (links : Nat) : u.walk links = t.walk links := by
  induction links with
  | zero => exact funext fun _ => funext fun _ => funext fun _ => h.follow_eq rfl _ _ _
  | succ links ih => exact funext fun _ => funext fun _ => funext fun _ => h.follow_eq ih _ _ _

/-- **A path leads to the same place.** -/
theorem resolve_eq (h : Resembles rel t u) (p : Path) : u.resolve p = t.resolve p := by
  rw [resolve, resolve, h.walk_eq, namesOf, namesOf, h.cwd]

theorem cwdPath_eq (h : Resembles rel t u) : u.cwdPath = t.cwdPath := by
  rw [cwdPath, cwdPath, h.cwd]

/-! ## Questions -/

/-- A question that does not look at the bytes of files has the same answer. -/
theorem map_status?_eq (h : Resembles rel t u) {α : Type} {g : Option Entry → α}
    (hg : ∀ content content', g (some (.file content')) = g (some (.file content))) (p : Path) :
    (u.status? p).map g = (t.status? p).map g := by
  rw [status?, status?, h.resolve_eq]
  split
  · next loc _ =>
      simp only [Except.map]
      rcases h.entry loc with ⟨heq, -⟩ | ⟨content, content', hfile, hfile', -⟩
      · rw [heq]
      · rw [hfile, hfile', hg content]
  · rfl
  · rfl

theorem exists?_eq (h : Resembles rel t u) (p : Path) : u.exists? p = t.exists? p :=
  h.map_status?_eq (fun _ _ => rfl) p

theorem isFile?_eq (h : Resembles rel t u) (p : Path) : u.isFile? p = t.isFile? p :=
  h.map_status?_eq (fun _ _ => rfl) p

theorem isDirectory?_eq (h : Resembles rel t u) (p : Path) : u.isDirectory? p = t.isDirectory? p :=
  h.map_status?_eq (fun _ _ => rfl) p

theorem keeps (h : Resembles rel t u) : Keeps t u := by
  refine ⟨h.cwd, fun {loc e} he => ?_⟩
  rcases h.entry loc with ⟨heq, -⟩ | ⟨content, content', hfile, hfile', -⟩
  · exact ⟨e, heq.trans he, .refl e⟩
  · obtain rfl := Option.some.inj (hfile.symm.trans he)
    exact ⟨_, hfile', trivial⟩

theorem none_iff (h : Resembles rel t u) {loc : Location} :
    u.entryAt loc = none ↔ t.entryAt loc = none := by
  rcases h.entry loc with ⟨heq, -⟩ | ⟨content, content', hfile, hfile', -⟩
  · rw [heq]
  · simp [hfile, hfile']

/-- **A directory holds the same names.** -/
theorem list_eq (h : Resembles rel t u) (p : Path) : u.list p = t.list p := by
  have hnames : ∀ loc, u.namesIn loc = t.namesIn loc := fun loc =>
    namesIn_congr fun n => h.none_iff
  simp only [list, h.resolve_eq, h.directory_iff, hnames]

/-- **Reading** fails in the same way, or gives the bytes of two files at one location. -/
theorem readFile_cases (h : Resembles rel t u) (p : Path) :
    (∃ f, t.readFile p = .error f ∧ u.readFile p = .error f) ∨
      ∃ loc content content', t.resolve p = .ok (.entry loc) ∧ rel loc content content' ∧
        t.readFile p = .ok content ∧ u.readFile p = .ok content' := by
  rw [readFile, readFile, h.resolve_eq]
  cases hres : t.resolve p with
  | error f => exact .inl ⟨f, rfl, rfl⟩
  | ok place =>
      cases place with
      | free loc n => exact .inl ⟨_, rfl, rfl⟩
      | entry loc =>
          rcases h.entry loc with ⟨heq, hnot⟩ | ⟨content, content', hfile, hfile', hrel⟩
          · simp only [heq]
            cases hentry : t.entryAt loc with
            | none => exact .inl ⟨_, rfl, rfl⟩
            | some e =>
                cases e with
                | file content => exact absurd hentry (hnot content)
                | directory => exact .inl ⟨_, rfl, rfl⟩
                | link target => exact .inl ⟨_, rfl, rfl⟩
          · simp only [hfile, hfile']
            exact .inr ⟨loc, content, content', rfl, hrel, rfl, rfl⟩

/-! ## Changes -/

theorem add (h : Resembles rel t u) {n : Name} {loc : Location} {e : Entry}
    (he : Similar (rel (n :: loc)) (some e) (some e)) : Both rel (t.add n loc e) (u.add n loc e) := by
  by_cases hdir : t.entryAt loc = some .directory
  · have hdir' := h.directory_iff.2 hdir
    cases hold : t.entryAt (n :: loc) with
    | none =>
        have hold' := h.none_iff.2 hold
        obtain ⟨w, hw⟩ := add_of_none (e := e) hdir hold
        obtain ⟨w', hw'⟩ := add_of_none (e := e) hdir' hold'
        rw [hw, hw']
        refine .inr ⟨w, w', rfl, rfl, ?_, fun q => ?_⟩
        · rw [(add_retains hw).cwd, (add_retains hw').cwd, h.cwd]
        · rw [(add_eq_ok hw).2, (add_eq_ok hw').2]
          split
          · next heq =>
              rw [heq]
              exact he
          · exact h.entry q
    | some old =>
        obtain ⟨old', hold', -⟩ := h.keeps.entry hold
        rw [add_of_some hold, add_of_some hold']
        exact .error _
  · rw [FileTree.add, FileTree.add, dif_neg hdir, dif_neg fun hdir' => hdir (h.directory_iff.1 hdir')]
    exact .error _

theorem similar_directory (loc : Location) :
    Similar (rel loc) (some .directory) (some .directory) := .inl ⟨rfl, by simp⟩

theorem makeDirectory (h : Resembles rel t u) (p : Path) :
    Both rel (t.makeDirectory p) (u.makeDirectory p) := by
  have hwalk : u.walk linkLimit false [] (u.namesOf p.parent) =
      t.walk linkLimit false [] (t.namesOf p.parent) := by
    rw [h.walk_eq, namesOf, namesOf, h.cwd]
  rw [FileTree.makeDirectory, FileTree.makeDirectory, make, make, hwalk]
  simp only [ne_eq, h.directory_iff]
  split
  · exact .error _
  · split
    · exact .error _
    · split
      · exact .error _
      · exact .error _
      · split
        · exact .error _
        · split
          · exact .error _
          · split
            · exact .error _
            · exact h.add (similar_directory _)

/-- **The same directories are made**, whether all of them can be made or not. -/
theorem makeDirectoriesUp (h : Resembles rel t u) (anchor : Anchor) (up : List Name) :
    Resembles rel (FileTree.makeDirectoriesUp anchor up t).1
        (FileTree.makeDirectoriesUp anchor up u).1 ∧
      (FileTree.makeDirectoriesUp anchor up u).2 = (FileTree.makeDirectoriesUp anchor up t).2 := by
  have hsettle : ∀ {t u : FileTree}, Resembles rel t u → u.settle = t.settle := by
    intro t u h
    funext p f
    rw [settle, settle, h.isDirectory?_eq]
  induction up generalizing t u with
  | nil =>
      rw [FileTree.makeDirectoriesUp, FileTree.makeDirectoriesUp, hsettle h]
      rcases h.makeDirectory ⟨anchor, []⟩ with ⟨f, hf, hf'⟩ | ⟨t', u', ht', hu', h'⟩
      · rw [hf, hf']
        cases f <;> exact ⟨h, rfl⟩
      · rw [ht', hu']
        exact ⟨h', rfl⟩
  | cons n up ih =>
      rw [FileTree.makeDirectoriesUp, FileTree.makeDirectoriesUp, hsettle h]
      rcases h.makeDirectory ⟨anchor, (n :: up).reverse⟩ with ⟨f, hf, hf'⟩ | ⟨t', u', ht', hu', h'⟩
      · simp only [hf, hf']
        cases f with
        | missing =>
            obtain ⟨hup, hresult⟩ := ih h
            revert hup hresult
            generalize FileTree.makeDirectoriesUp anchor up t = r
            generalize FileTree.makeDirectoriesUp anchor up u = r'
            obtain ⟨t₁, x⟩ := r
            obtain ⟨u₁, x'⟩ := r'
            rintro hup rfl
            cases x' with
            | error f => exact ⟨hup, rfl⟩
            | ok _ =>
                simp only [hsettle hup]
                rcases hup.makeDirectory ⟨anchor, (n :: up).reverse⟩ with
                  ⟨g, hg, hg'⟩ | ⟨t₂, u₂, ht₂, hu₂, h₂⟩
                · simp only [hg, hg']
                  cases g <;> exact ⟨hup, rfl⟩
                · simp only [ht₂, hu₂]
                  exact ⟨h₂, trivial⟩
        | _ => exact ⟨h, rfl⟩
      · simp only [ht', hu']
        exact ⟨h', trivial⟩

theorem makeDirectories (h : Resembles rel t u) (p : Path) :
    Resembles rel (t.makeDirectories p).1 (u.makeDirectories p).1 ∧
      (u.makeDirectories p).2 = (t.makeDirectories p).2 :=
  h.makeDirectoriesUp p.anchor p.names.reverse

end Resembles

/-! ## Writing -/

/-- Writing to an entry that is a file gives it the new bytes. -/
theorem writeFile_of_file {loc : Location} {old : List UInt8} (hres : t.resolve p = .ok (.entry loc))
    (hfile : t.entryAt loc = some (.file old)) (content : List UInt8) :
    ∃ w, t.writeFile p content = .ok w ∧
      ∀ q, w.entryAt q = if q = loc then some (.file content) else t.entryAt q := by
  cases loc with
  | nil => exact absurd hfile (by simp)
  | cons n loc =>
      refine ⟨t.put n loc (.file content) (entryAt_parent hfile) (by simp [hfile]), ?_,
        entryAt_put t n loc _ _ _⟩
      unfold writeFile
      rw [hres]
      simp only
      split
      · rfl
      · next hdir => exact absurd (hfile.symm.trans hdir) (by simp)
      · next hno _ => exact absurd hfile (hno old)

/-- Writing to any other entry fails. -/
theorem writeFile_of_not_file {loc : Location} (hres : t.resolve p = .ok (.entry loc))
    (hnot : ∀ old, t.entryAt loc ≠ some (.file old)) (content : List UInt8) :
    t.writeFile p content =
      .error (if t.entryAt loc = some .directory then .isDirectory else .missing) := by
  unfold writeFile
  rw [hres]
  cases loc with
  | nil => simp
  | cons n loc =>
      simp only
      split
      · next hfile => exact absurd hfile (hnot _)
      · next hdir => rw [if_pos hdir]
      · next hdir => rw [if_neg hdir]

theorem follow_free {jump : Bool → Location → List Name → Except Fault Place}
    (hjump : ∀ toDirectory loc names top n, jump toDirectory loc names = .ok (.free top n) →
      t.entryAt (n :: top) = none) {toDirectory : Bool} {loc top : Location} {names : List Name}
    {n : Name} (h : t.follow jump toDirectory loc names = .ok (.free top n)) :
    t.entryAt (n :: top) = none := by
  rw [follow_eq_ok_iff] at h
  generalize hplace : Place.free top n = place at h
  induction h with
  | here _ => exact absurd hplace (by simp)
  | up _ _ ih => exact ih hplace
  | free _ _ _ _ hnone =>
      obtain ⟨rfl, rfl⟩ := Place.free.inj hplace
      exact hnone
  | link _ _ _ hto => exact hjump _ _ _ _ _ (hplace ▸ hto)
  | name _ _ _ _ _ ih => exact ih hplace

/-- Nothing stands at a free name. -/
theorem resolve_free {loc : Location} {n : Name} (h : t.resolve p = .ok (.free loc n)) :
    t.entryAt (n :: loc) = none := by
  have hwalk : ∀ links toDirectory loc names top n,
      t.walk links toDirectory loc names = .ok (.free top n) → t.entryAt (n :: top) = none := by
    intro links
    induction links with
    | zero => exact fun _ _ _ _ _ => follow_free fun _ _ _ _ _ hjump => absurd hjump (by simp)
    | succ links ih => exact fun _ _ _ _ _ => follow_free ih
  exact hwalk _ _ _ _ _ _ (resolve_eq_ok_iff.1 h).2

/-- The location that is opened by writing a file at the path, if there is one. -/
def opening (t : FileTree) (p : Path) : List Location :=
  ((t.resolve p).toOption.map Place.location).toList

namespace Resembles

variable {opened : List Location} {content : List UInt8}

theorem of_rewritten (h : Resembles (Rewritten opened rel) t u) : Resembles rel t u := by
  refine ⟨h.cwd, fun loc => (h.entry loc).imp_right ?_⟩
  rintro ⟨content, content', hfile, hfile', hrel, -⟩
  exact ⟨content, content', hfile, hfile', hrel⟩

theorem mono (h : Resembles (Rewritten opened rel) t u) {opened' : List Location}
    (hsub : opened' ⊆ opened) : Resembles (Rewritten opened' rel) t u := by
  refine ⟨h.cwd, fun loc => (h.entry loc).imp_right ?_⟩
  rintro ⟨content, content', hfile, hfile', hrel, heq⟩
  exact ⟨content, content', hfile, hfile', hrel, fun hmem => heq (hsub hmem)⟩

/-- Where there is no file, there is nothing to be alike. -/
theorem weaken (h : Resembles (Rewritten opened rel) t u) {new : List Location}
    (hnew : ∀ loc ∈ new, ∀ content, t.entryAt loc ≠ some (.file content)) :
    Resembles (Rewritten (new ++ opened) rel) t u := by
  refine ⟨h.cwd, fun loc => (h.entry loc).imp_right ?_⟩
  rintro ⟨content, content', hfile, hfile', hrel, heq⟩
  refine ⟨content, content', hfile, hfile', hrel, fun hmem => ?_⟩
  rcases List.mem_append.1 hmem with hmem | hmem
  · exact absurd hfile (hnew loc hmem content)
  · exact heq hmem

/-- **The same bytes are written**, or cannot be written, in both trees. -/
theorem writeFile (h : Resembles (Rewritten opened rel) t u)
    (hrel : ∀ loc ∈ t.opening p, rel loc content content) :
    (∃ f, t.writeFile p content = .error f ∧ u.writeFile p content = .error f ∧
        Resembles (Rewritten (t.opening p ++ opened) rel) t u) ∨
      ∃ t' u', t.writeFile p content = .ok t' ∧ u.writeFile p content = .ok u' ∧
        Resembles (Rewritten (t.opening p ++ opened) rel) t' u' := by
  have hres' := h.resolve_eq p
  cases hres : t.resolve p with
  | error f =>
      rw [FileTree.writeFile, FileTree.writeFile, hres', opening, hres]
      exact .inl ⟨f, rfl, rfl, h⟩
  | ok place =>
      have hopening : t.opening p = [place.location] := by rw [opening, hres]; rfl
      rw [hopening] at hrel ⊢
      have hsimilar : Similar (Rewritten ([place.location] ++ opened) rel place.location)
          (some (.file content)) (some (.file content)) :=
        .inr ⟨content, content, rfl, rfl, hrel _ List.mem_cons_self, fun _ => rfl⟩
      rw [hres] at hres'
      cases place with
      | free loc n =>
          have hnone := resolve_free hres
          have h' : Resembles (Rewritten ([n :: loc] ++ opened) rel) t u :=
            h.weaken (by simp [hnone])
          rw [FileTree.writeFile, FileTree.writeFile, hres', hres]
          rcases h'.add hsimilar with ⟨f, hf, hf'⟩ | ⟨t', u', ht', hu', hadd⟩
          · exact .inl ⟨f, hf, hf', h'⟩
          · exact .inr ⟨t', u', ht', hu', hadd⟩
      | entry loc =>
          rcases h.entry loc with ⟨heq, hnot⟩ | ⟨old, old', hfile, hfile', -⟩
          · rw [writeFile_of_not_file hres hnot, writeFile_of_not_file hres' (heq ▸ hnot), heq]
            exact .inl ⟨_, rfl, rfl, h.weaken (by simpa [Place.location] using hnot)⟩
          · obtain ⟨w, hw, hentries⟩ := writeFile_of_file hres hfile content
            obtain ⟨w', hw', hentries'⟩ := writeFile_of_file hres' hfile' content
            refine .inr ⟨w, w', hw, hw', ?_, fun q => ?_⟩
            · rw [(writeFile_retains hw).cwd, (writeFile_retains hw').cwd, h.cwd]
            · rw [hentries, hentries']
              split
              · next heq =>
                  rw [heq]
                  exact hsimilar
              · next hne =>
                  refine (h.entry q).imp_right ?_
                  rintro ⟨content, content', hfile, hfile', hrel, heq⟩
                  refine ⟨content, content', hfile, hfile', hrel, fun hmem => ?_⟩
                  exact heq ((List.mem_append.1 hmem).resolve_left (by simpa [Place.location] using hne))

end Resembles

end FileTree

namespace Document

open FileTree

variable {rel : Location → List UInt8 → List UInt8 → Prop} {t u : FileTree} {p : Path}
  {encoding : Text} {opened : List Location}

/-- The location that is opened by writing lines to a file, if it comes to that. -/
def opening (t : FileTree) (p : Path) (encoding : Text) : List Location :=
  match t.makeDirectories p.parent with
  | (_, .error _) => []
  | (t', .ok ()) => if '\x00' ∈ encoding then [] else t'.opening p

/-- Which bytes are written, and how writing them ends, does not depend on the tree. -/
theorem fill_eq (p : Path) (encoding : Text) (lines : List Text) :
    ∃ content : List UInt8 × Option Cause, ∀ t, fill t p encoding lines =
      match t.writeFile p content.1 with
      | .error f => (t, .error (writeError p f))
      | .ok t' =>
          match content.2 with
          | none => (t', .ok ())
          | some c => (t', .error (.unwritable p c)) :=
  ⟨_, fun _ => rfl⟩

theorem fill_resembles (h : Resembles (Rewritten opened rel) t u)
    (hrel : ∀ loc ∈ t.opening p, ∀ content, rel loc content content) (lines : List Text) :
    Resembles (Rewritten (t.opening p ++ opened) rel) (fill t p encoding lines).1
        (fill u p encoding lines).1 ∧
      (fill u p encoding lines).2 = (fill t p encoding lines).2 := by
  obtain ⟨content, hfill⟩ := fill_eq p encoding lines
  rw [hfill, hfill]
  rcases h.writeFile fun loc hloc => hrel loc hloc content.1 with
    ⟨f, hf, hf', h'⟩ | ⟨t', u', ht', hu', h'⟩
  · rw [hf, hf']
    exact ⟨h', rfl⟩
  · rw [ht', hu']
    simp only
    cases content.2 <;> exact ⟨h', rfl⟩

/-- **Lines are written in the same way.** -/
theorem write_resembles (h : Resembles (Rewritten opened rel) t u)
    (hrel : ∀ loc ∈ opening t p encoding, ∀ content, rel loc content content) (lines : List Text) :
    Resembles (Rewritten (opening t p encoding ++ opened) rel) (write t p encoding lines).1
        (write u p encoding lines).1 ∧
      (write u p encoding lines).2 = (write t p encoding lines).2 := by
  obtain ⟨hdirs, hresult⟩ := h.makeDirectories p.parent
  revert hdirs hresult hrel
  rw [opening, write, write]
  generalize t.makeDirectories p.parent = r
  generalize u.makeDirectories p.parent = r'
  obtain ⟨t', x⟩ := r
  obtain ⟨u', x'⟩ := r'
  rintro hrel hdirs rfl
  cases x' with
  | error f => exact ⟨hdirs, rfl⟩
  | ok _ =>
      simp only at hrel ⊢
      split
      · exact ⟨hdirs, rfl⟩
      · next hnull =>
          rw [if_neg hnull] at hrel
          exact fill_resembles hdirs hrel lines

end Document

end Folio

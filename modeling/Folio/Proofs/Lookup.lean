import Folio.Proofs.Copies

/-!
# Files that are found in different file trees

What is found at a path depends on all that stands on the way to it. But where there are no links, a
normal path leads just to the location that its names spell, and whatever stands at a location has
its directories above it. So **two file trees with the same entry there give the same answer**, if
the path leads anywhere at all in one of them.

Main results: `status?_of_entryAt`, and `Document.read_of_entryAt`, a document is read as it was if
its file is as it was.
-/

namespace Folio

namespace FileTree

variable {t u : FileTree} {p : Path} {e : Entry}

/-! ## Where a path leads in another tree -/

/-- Above an entry there are directories. -/
theorem directory_of_entryAt {names : List Name} {loc : Location} (hne : names ≠ [])
    (h : (u.entryAt (names ++ loc)).isSome = true) : u.entryAt loc = some .directory := by
  induction names with
  | nil => exact absurd rfl hne
  | cons n names ih =>
      obtain ⟨e, he⟩ := Option.isSome_iff_exists.1 h
      have hparent : u.entryAt (names ++ loc) = some .directory := entryAt_parent he
      by_cases hnames : names = []
      · rwa [hnames] at hparent
      · exact ih hnames (by rw [hparent]; rfl)

/-- Behind a name there is an entry, if there is one at the end of the names. -/
theorem isSome_entryAt_of_cons {n : Name} {names : List Name} {loc : Location}
    (h : (u.entryAt ((n :: names).reverse ++ loc)).isSome = true) :
    (u.entryAt (n :: loc)).isSome = true := by
  rw [List.reverse_cons, List.append_assoc, List.singleton_append] at h
  by_cases hlast : names = []
  · simpa [hlast] using h
  · rw [directory_of_entryAt (by simpa using hlast) h]
    rfl

/-- Names that lead to an entry in one tree do so in any other that has an entry there. -/
theorem follow_entry (ht : t.LinkFree) (hu : u.LinkFree)
    {jump jump' : Bool → Location → List Name → Except Fault Place} {loc there : Location}
    {names : List Name} (hplain : Name.up ∉ names)
    (h : t.follow jump false loc names = .ok (.entry there))
    (hentry : (u.entryAt (names.reverse ++ loc)).isSome = true) :
    u.follow jump' false loc names = .ok (.entry (names.reverse ++ loc)) := by
  rw [follow_eq_ok_iff] at h ⊢
  generalize hplace : Place.entry there = place at h
  induction h with
  | here _ => exact .here (by simp)
  | up _ _ _ => exact absurd List.mem_cons_self hplain
  | free _ _ _ _ _ => exact absurd hplace (by simp)
  | link _ _ hlink _ => exact absurd hlink (ht _ _)
  | name hup hshort _ _ _ ih =>
      obtain ⟨e, he⟩ := Option.isSome_iff_exists.1 (isSome_entryAt_of_cons hentry)
      rw [List.reverse_cons, List.append_assoc, List.singleton_append] at hentry ⊢
      exact .name hup hshort he (hu.isLink he)
        (ih (fun hmem => hplain (List.mem_cons_of_mem _ hmem)) hentry hplace)

theorem resolve_entry (ht : t.LinkFree) (hu : u.LinkFree) (hp : p.Normal) {there : Location}
    (h : t.resolve p = .ok (.entry there)) (hentry : (u.entryAt p.location).isSome = true) :
    u.resolve p = .ok (.entry p.location) := by
  rw [resolve_eq_ok_iff, namesOf_of_isAbsolute hp.absolute] at h ⊢
  rw [← List.append_nil p.location] at hentry ⊢
  exact h.imp_right fun hway => follow_entry ht hu hp.plain hway hentry

/-! ## Questions and answers -/

theorem status?_eq_some_iff :
    t.status? p = .ok (some e) ↔ ∃ loc, t.resolve p = .ok (.entry loc) ∧ t.entryAt loc = some e := by
  rw [status?]
  cases hres : t.resolve p with
  | error f =>
      simp only [reduceCtorEq, false_and, exists_false, iff_false]
      split <;> simp
  | ok place =>
      cases place with
      | entry loc => simp
      | free loc n => simp

/-- What is found at a normal path stands where its names say. -/
theorem entryAt_of_status? (ht : t.LinkFree) (hp : p.Normal) (h : t.status? p = .ok (some e)) :
    t.entryAt p.location = some e := by
  obtain ⟨loc, hres, hentry⟩ := status?_eq_some_iff.1 h
  obtain rfl : loc = p.location := resolve_eq_ok ht hp hres
  exact hentry

/-- **The same entry is found in another tree.** -/
theorem status?_of_entryAt (ht : t.LinkFree) (hu : u.LinkFree) (hp : p.Normal)
    (h : t.status? p = .ok (some e)) (hentry : u.entryAt p.location = some e) :
    u.status? p = .ok (some e) := by
  obtain ⟨loc, hres, -⟩ := status?_eq_some_iff.1 h
  have hsome : (u.entryAt p.location).isSome = true := by
    rw [hentry]
    rfl
  exact status?_eq_some_iff.2 ⟨p.location, resolve_entry ht hu hp hres hsome, hentry⟩

/-- **A file is found in all trees** that differ by changes elsewhere. -/
theorem status?_of_changes {s : FileTree} {paths : Path → Prop} (hs : s.LinkFree)
    (ht : Changes paths s t) (hu : Changes paths s u) (hp : p.Normal)
    (hspared : ∀ q, paths q → p.location ≠ q.location) {content : List UInt8}
    (h : t.status? p = .ok (some (.file content))) :
    u.status? p = .ok (some (.file content)) := by
  have hfile := entryAt_of_status? (hs.of_changes ht) hp h
  have hold : s.entryAt p.location = some (.file content) := by
    rcases ht p.location with heq | ⟨q, hq, hat, -⟩ | ⟨-, -, -, -, hdir⟩
    · rw [← heq, hfile]
    · exact absurd hat (hspared q hq)
    · rw [hfile] at hdir
      exact absurd hdir (by simp)
  exact status?_of_entryAt (hs.of_changes ht) (hs.of_changes hu) hp h (hu.entryAt_eq hold hspared)

theorem readFile_eq_ok_iff {content : List UInt8} :
    t.readFile p = .ok content ↔ t.status? p = .ok (some (.file content)) := by
  rw [status?_eq_some_iff, readFile]
  cases hres : t.resolve p with
  | error f => simp
  | ok place =>
      cases place with
      | free loc n => simp
      | entry loc =>
          simp only [Except.ok.injEq, Place.entry.injEq, exists_eq_left']
          cases hentry : t.entryAt loc with
          | none => simp
          | some e => cases e <;> simp

theorem isFile?_eq_true_iff :
    t.isFile? p = .ok true ↔ ∃ content, t.status? p = .ok (some (.file content)) := by
  rw [isFile?]
  cases t.status? p with
  | error f => simp [Except.map]
  | ok e =>
      simp only [Except.map, Except.ok.injEq]
      split
      · simp
      · next hfile => simpa using hfile

theorem exists?_of_status? (h : t.status? p = .ok (some e)) : t.exists? p = .ok true := by
  rw [exists?, h]
  rfl

end FileTree

namespace Document

open FileTree

variable {t u : FileTree} {p : Path} {encoding : Text} {lines : List Text} {e : BuildError}

theorem exists_status?_of_read (h : read t p encoding = .ok lines) :
    ∃ content, t.status? p = .ok (some (.file content)) := by
  rw [read] at h
  split at h
  · exact absurd h (by simp)
  · split at h
    · exact absurd h (by simp)
    · exact absurd h (by simp)
    · exact absurd h (by simp)
    · next content hread => exact ⟨content, readFile_eq_ok_iff.1 hread⟩

/-- Reading fails at a null character, or the error names the document. -/
theorem read_error (h : read t p encoding = .error e) :
    e = .nullCharacter ∧ ('\x00' ∈ encoding ∨ t.readFile p = .error .nullCharacter) ∨
      ∃ c, e = .unreadable p c := by
  rw [read] at h
  split at h
  · next hnull => exact .inl ⟨(Except.error.inj h).symm, .inl hnull⟩
  · split at h
    · next hread => exact .inl ⟨(Except.error.inj h).symm, .inr hread⟩
    · exact .inr ⟨_, (Except.error.inj h).symm⟩
    · exact .inr ⟨_, (Except.error.inj h).symm⟩
    · split at h
      · exact .inr ⟨_, (Except.error.inj h).symm⟩
      · split at h
        · split at h
          · exact .inr ⟨_, (Except.error.inj h).symm⟩
          · exact absurd h (by simp)
        · exact .inr ⟨_, (Except.error.inj h).symm⟩

/-- **A document is read as it was** if its file is as it was. -/
theorem read_of_status? {content : List UInt8} (h : read t p encoding = .ok lines)
    (ht : t.status? p = .ok (some (.file content)))
    (hu : u.status? p = .ok (some (.file content))) : read u p encoding = .ok lines := by
  rw [← h, read, read, readFile_eq_ok_iff.2 ht, readFile_eq_ok_iff.2 hu]

theorem isPage?_eq_true_iff :
    isPage? t p = .ok true ↔ isPageName p = true ∧
      ∃ content, t.status? p = .ok (some (.file content)) := by
  rw [isPage?, ← isFile?_eq_true_iff]
  by_cases hname : isPageName p = true
  · simp [hname]
  · simp [hname]

end Document

end Folio

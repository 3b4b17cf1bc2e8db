import Folio.Proofs.Normal
import Folio.Proofs.Ways

/-!
# What writing a document changes

Where there are no links, a normal path leads to the location that its names spell. So an operation
on the file tree can be told by the paths it is given.

**Footprints (`FileTree.Changes`).** One tree differs from another only by files at some paths and
by new directories on the way to them. Nothing is removed, and no directory is replaced.

Main result: `Document.write_changes`, writing a document leaves no other trace than the file and
the missing directories above it, whether it succeeds or not.
-/

namespace Folio

/-- The location that the names of a path spell. -/
def Path.location (p : Path) : Location := p.names.reverse

namespace FileTree

def LinkFree (t : FileTree) : Prop := ∀ loc target, t.entryAt loc ≠ some (.link target)

/-- `t'` is `t` with files at some of these paths and with new directories above them. -/
def Changes (paths : Path → Prop) (t t' : FileTree) : Prop :=
  ∀ loc, t'.entryAt loc = t.entryAt loc ∨
    (∃ p, paths p ∧ loc = p.location ∧ ∃ content, t'.entryAt loc = some (.file content)) ∨
    (∃ p, paths p ∧ loc <:+ p.location ∧ t.entryAt loc = none ∧ t'.entryAt loc = some .directory)

variable {t t' t'' : FileTree} {paths : Path → Prop}

/-! ## Footprints -/

namespace Changes

theorem refl (paths : Path → Prop) (t : FileTree) : Changes paths t t := fun _ => .inl rfl

theorem mono {paths' : Path → Prop} (h : Changes paths t t') (hsub : ∀ p, paths p → paths' p) :
    Changes paths' t t' := by
  intro loc
  rcases h loc with heq | ⟨p, hp, hfile⟩ | ⟨p, hp, hdir⟩
  · exact .inl heq
  · exact .inr (.inl ⟨p, hsub p hp, hfile⟩)
  · exact .inr (.inr ⟨p, hsub p hp, hdir⟩)

theorem trans (h : Changes paths t t') (h' : Changes paths t' t'') : Changes paths t t'' := by
  intro loc
  rcases h' loc with heq | hfile | ⟨p, hp, hloc, hnone, hdir⟩
  · rw [heq]
    exact h loc
  · exact .inr (.inl hfile)
  · -- What was free before the second change was free before the first.
    rcases h loc with heq | ⟨_, _, _, _, hsome⟩ | ⟨_, _, _, _, hsome⟩
    · exact .inr (.inr ⟨p, hp, hloc, heq ▸ hnone, hdir⟩)
    · exact absurd (hnone.symm.trans hsome) (by simp)
    · exact absurd (hnone.symm.trans hsome) (by simp)

end Changes

/-! ## Links -/

theorem linkFree_of_entries (h : ∀ e ∈ t.entries.entries, e.2.isLink = false) : t.LinkFree := by
  intro loc target hloc
  cases loc with
  | nil => exact absurd hloc (by simp)
  | cons n loc =>
      rw [entryAt_cons] at hloc
      exact absurd (h _ (OrderedMap.get?_eq_some_iff.1 hloc)) (by simp [Entry.isLink])

/-- No link is made. -/
theorem LinkFree.of_changes (ht : t.LinkFree) (h : Changes paths t t') : t'.LinkFree := by
  intro loc target hloc
  rcases h loc with heq | ⟨_, _, _, _, hfile⟩ | ⟨_, _, _, _, hdir⟩
  · exact ht loc target (heq ▸ hloc)
  · exact absurd (hloc.symm.trans hfile) (by simp)
  · exact absurd (hloc.symm.trans hdir) (by simp)

theorem LinkFree.isLink (ht : t.LinkFree) {loc : Location} {e : Entry} (he : t.entryAt loc = some e) :
    e.isLink = false :=
  Entry.isLink_eq_false fun target hlink => ht loc target (hlink ▸ he)

/-! ## Where normal paths lead -/

/-- Without links, names that do not lead upwards are put in front of the location. -/
theorem follow_eq_ok (ht : t.LinkFree) {jump : Bool → Location → List Name → Except Fault Place}
    {toDirectory : Bool} {loc : Location} {names : List Name} {place : Place}
    (hplain : Name.up ∉ names) (h : t.follow jump toDirectory loc names = .ok place) :
    place.location = names.reverse ++ loc := by
  rw [follow_eq_ok_iff] at h
  induction h with
  | here _ => rfl
  | up _ _ _ => exact absurd List.mem_cons_self hplain
  | free _ _ _ _ _ => rfl
  | link _ _ hlink _ => exact absurd hlink (ht _ _)
  | name _ _ _ _ _ ih =>
      rw [ih fun hup => hplain (List.mem_cons_of_mem _ hup), List.reverse_cons, List.append_assoc,
        List.singleton_append]

theorem walk_eq_ok (ht : t.LinkFree) {links : Nat} {toDirectory : Bool} {names : List Name}
    {place : Place} (hplain : Name.up ∉ names) (h : t.walk links toDirectory [] names = .ok place) :
    place.location = names.reverse := by
  rw [← List.append_nil names.reverse]
  cases links with
  | zero => exact follow_eq_ok ht hplain h
  | succ links => exact follow_eq_ok ht hplain h

theorem resolve_eq_ok (ht : t.LinkFree) {p : Path} (hp : p.Normal) {place : Place}
    (h : t.resolve p = .ok place) : place.location = p.location := by
  rw [resolve_eq_ok_iff, namesOf_of_isAbsolute hp.absolute] at h
  exact walk_eq_ok ht hp.plain h.2

/-! ## Directories -/

theorem add_eq_ok {n : Name} {loc : Location} {e : Entry} (h : t.add n loc e = .ok t') :
    t.entryAt (n :: loc) = none ∧
      ∀ q, t'.entryAt q = if q = n :: loc then some e else t.entryAt q := by
  unfold add at h
  split at h
  · split at h
    · next hn =>
        obtain rfl := Except.ok.inj h
        exact ⟨hn, entryAt_put t n loc e _ _⟩
    · exact absurd h (by simp)
  · exact absurd h (by simp)

/-- A directory is made where there was nothing. -/
theorem makeDirectory_eq_ok (ht : t.LinkFree) {p : Path} (hp : p.Normal)
    (h : t.makeDirectory p = .ok t') :
    t.entryAt p.location = none ∧
      ∀ q, t'.entryAt q = if q = p.location then some .directory else t.entryAt q := by
  rw [makeDirectory, make] at h
  split at h
  · exact absurd h (by simp)
  · split at h
    · exact absurd h (by simp)
    · next n hn =>
        split at h
        · exact absurd h (by simp)
        · exact absurd h (by simp)
        · next loc hwalk =>
            rw [namesOf, if_pos hp.parent.absolute] at hwalk
            have hloc : loc = p.parent.names.reverse := walk_eq_ok ht hp.parent.plain hwalk
            have hcons : n :: loc = p.location := by
              obtain ⟨names, hnames⟩ := List.getLast?_eq_some_iff.1 hn
              rw [hloc, Path.parent, Path.location, hnames]
              simp
            split at h
            · exact absurd h (by simp)
            · split at h
              · exact absurd h (by simp)
              · split at h
                · exact absurd h (by simp)
                · rw [← hcons]
                  exact add_eq_ok h

theorem makeDirectory_changes (ht : t.LinkFree) {p q : Path} (hp : p.Normal)
    (hq : p.location <:+ q.location) (h : t.makeDirectory p = .ok t') : Changes (· = q) t t' := by
  obtain ⟨hnone, hmade⟩ := makeDirectory_eq_ok ht hp h
  intro loc
  rw [hmade]
  split
  · next heq =>
      subst heq
      exact .inr (.inr ⟨q, rfl, hq, hnone, rfl⟩)
  · exact .inl rfl

/-- **Directories are made step by step**: what each step that is taken brings about, all of them
do. The names are those that `makeDirectoriesUp` goes up, so the induction is on them. -/
theorem makeDirectoriesUp_chain {R : FileTree → FileTree → Prop} (hrefl : ∀ t, R t t)
    (htrans : ∀ {t u w}, R t u → R u w → R t w) {anchor : Anchor} {up : List Name}
    (hstep : ∀ {t u names}, names <:+ up → t.makeDirectory ⟨anchor, names.reverse⟩ = .ok u → R t u)
    (t : FileTree) : R t (makeDirectoriesUp anchor up t).1 := by
  induction up generalizing t with
  | nil =>
      rw [makeDirectoriesUp]
      split
      · next h => exact hstep List.suffix_rfl h
      · exact hrefl t
      · exact hrefl t
  | cons n up ih =>
      have hup := ih (fun hway => hstep (hway.trans (List.suffix_cons n up))) t
      rw [makeDirectoriesUp]
      split
      · next h => exact hstep List.suffix_rfl h
      · split
        · next hmade =>
            rw [hmade] at hup
            exact hup
        · next hmade =>
            rw [hmade] at hup
            split
            · next h => exact htrans hup (hstep List.suffix_rfl h)
            · exact hup
            · exact hup
      · exact hrefl t

theorem makeDirectories_chain {R : FileTree → FileTree → Prop} (hrefl : ∀ t, R t t)
    (htrans : ∀ {t u w}, R t u → R u w → R t w) {p : Path}
    (hstep : ∀ {t u names}, names <+: p.names → t.makeDirectory ⟨p.anchor, names⟩ = .ok u → R t u)
    (t : FileTree) : R t (t.makeDirectories p).1 :=
  makeDirectoriesUp_chain hrefl htrans
    (fun hway => hstep (by simpa using List.reverse_prefix.2 hway)) t

/-- **Making directories** makes nothing but missing ones on the way. -/
theorem makeDirectories_changes (ht : t.LinkFree) {p q : Path} (hp : p.Normal)
    (hq : p.location <:+ q.location) : Changes (· = q) t (t.makeDirectories p).1 := by
  refine makeDirectories_chain (R := fun t u => t.LinkFree → Changes (· = q) t u)
    (fun t _ => .refl _ t) (fun h h' ht => (h ht).trans (h' (ht.of_changes (h ht)))) ?_ t ht
  intro t u names hway hmade ht
  have hnormal : (⟨p.anchor, names⟩ : Path).Normal :=
    ⟨hp.absolute, fun hup => hp.plain (hway.subset hup)⟩
  exact makeDirectory_changes ht hnormal ((List.reverse_suffix.2 hway).trans hq) hmade

/-! ## Files -/

/-- **A file is written** where the path leads, and nothing else is touched. -/
theorem writeFile_eq_ok {p : Path} {content : List UInt8} (h : t.writeFile p content = .ok t') :
    ∃ place, t.resolve p = .ok place ∧
      ∀ q, t'.entryAt q = if q = place.location then some (.file content) else t.entryAt q := by
  unfold writeFile at h
  split at h
  · exact absurd h (by simp)
  · next hres => exact ⟨_, hres, (add_eq_ok h).2⟩
  · exact absurd h (by simp)
  · next n loc hres =>
      split at h
      · obtain rfl := Except.ok.inj h
        exact ⟨_, hres, entryAt_put t n loc _ _ _⟩
      · exact absurd h (by simp)
      · exact absurd h (by simp)

theorem writeFile_changes (ht : t.LinkFree) {p : Path} (hp : p.Normal) {content : List UInt8}
    (h : t.writeFile p content = .ok t') : Changes (· = p) t t' := by
  obtain ⟨place, hres, hput⟩ := writeFile_eq_ok h
  intro loc
  rw [hput]
  split
  · next heq => exact .inr (.inl ⟨p, rfl, heq.trans (resolve_eq_ok ht hp hres), content, rfl⟩)
  · exact .inl rfl

end FileTree

namespace Document

open FileTree

variable {t : FileTree}

/-- **What writing leaves** is what making the directories leaves, or that with the file. -/
theorem write_tree (t : FileTree) (p : Path) (encoding : Text) (lines : List Text) :
    (write t p encoding lines).1 = (t.makeDirectories p.parent).1 ∨
      ∃ content, (t.makeDirectories p.parent).1.writeFile p content =
        .ok (write t p encoding lines).1 := by
  rw [write]
  split
  · next hmade =>
      rw [hmade]
      exact .inl rfl
  · next t₁ hmade =>
      rw [hmade]
      split
      · exact .inl rfl
      · unfold fill
        simp only
        split
        · exact .inl rfl
        · next hwrite => split <;> exact .inr ⟨_, hwrite⟩

/-- **Writing a document** changes nothing but the file and the missing directories above it. -/
theorem write_changes (ht : t.LinkFree) {p : Path} (hp : p.Normal) (encoding : Text)
    (lines : List Text) : Changes (· = p) t (write t p encoding lines).1 := by
  have hparent : p.parent.location <:+ p.location :=
    List.reverse_suffix.2 (List.dropLast_prefix p.names)
  have hdirs := makeDirectories_changes ht hp.parent hparent
  rcases write_tree t p encoding lines with hsame | ⟨content, hwrite⟩
  · rw [hsame]
    exact hdirs
  · exact hdirs.trans (writeFile_changes (ht.of_changes hdirs) hp hwrite)

end Document

end Folio

import Mathlib.Data.List.Basic
import Folio.Command
import Folio.Proofs.Passages

/-!
# What the command leaves when it stops

The command changes the file tree in two places: it may remove the working directory, and then it
makes the pages. Between the two the build is opened, and there the source, the working directory
and the encoding are checked. **So a working directory that is to be removed is gone before anything
is checked** (`stale_cleared_before_checks`).

**What a removal comes to (`FileTree.Removed`)** depends on what stands at the end of the path,
where a link is not followed. A directory is emptied, and is itself gone just if the removal
succeeds, which it does if the path ends in a name. A link is left alone, and the removal fails.

**Theorem (`Command.run_leaves`).** For each point at which the command may stop, when it stops
there, with which result, and what it leaves: the tree as it was, the tree after the removal, or
what the build leaves of that. Without links, the place of the removal is the location that the
names of the path spell (`FileTree.locate_location`).
-/

namespace Folio

open FileTree

namespace FileTree

variable {t t' : FileTree} {p : Path} {top : Location}

/-! ## Removing -/

/-- What stood below the location is gone, what stood at it may be gone, and everything else is as
it was. Relative paths start where they did. -/
structure Emptied (top : Location) (t t' : FileTree) : Prop where
  cwd : t'.cwd = t.cwd
  beside : ∀ loc, ¬ top <:+ loc → t'.entryAt loc = t.entryAt loc
  entry : t'.entryAt top = t.entryAt top ∨ t'.entryAt top = none
  below : ∀ loc, top <:+ loc → loc ≠ top → t'.entryAt loc = none

/-- What the removal of the directory at a path leaves, and its result, if the path leads to this
location. It succeeds just if a directory itself stands there and the path ends in a name. The
directory is then gone, and else emptied; what is no directory is kept. -/
structure Removed (t : FileTree) (p : Path) (top : Location) (t' : FileTree)
    (r : Except Fault Unit) : Prop where
  succeeds : r = .ok () ↔
    t.entryAt top = some .directory ∧ ∃ n, p.names.getLast? = some n ∧ n ≠ .up
  emptied : t.entryAt top = some .directory →
    Emptied top t t' ∧ (t'.entryAt top = none ↔ r = .ok ())
  kept : t.entryAt top ≠ some .directory → t' = t

theorem entryAt_prune_self {top : Location} (hne : top ≠ []) : (t.prune top).entryAt top = none := by
  cases top with
  | nil => exact absurd rfl hne
  | cons n loc => rw [entryAt_prune, if_pos (within_iff.2 List.suffix_rfl)]

theorem entryAt_clear_self (t : FileTree) (top : Location) :
    (t.clear top).entryAt top = t.entryAt top := by
  cases top with
  | nil => rw [entryAt_root, entryAt_root]
  | cons n loc => simp [clear, entryAt_drop]

theorem prune_emptied (t : FileTree) {top : Location} (hne : top ≠ []) :
    Emptied top t (t.prune top) := by
  have hroot : ∀ loc, top <:+ loc → loc ≠ [] := by
    rintro loc htop rfl
    exact hne (List.suffix_nil.1 htop)
  have hat : ∀ loc, loc ≠ [] →
      (t.prune top).entryAt loc = if top <:+ loc then none else t.entryAt loc := by
    intro loc hloc
    cases loc with
    | nil => exact absurd rfl hloc
    | cons n loc => simp only [entryAt_prune, within_iff]
  refine ⟨rfl, fun loc hbeside => ?_, .inr (entryAt_prune_self hne), fun loc hbelow _ => ?_⟩
  · by_cases hloc : loc = []
    · rw [hloc, entryAt_root, entryAt_root]
    · rw [hat loc hloc, if_neg hbeside]
  · rw [hat loc (hroot loc hbelow), if_pos hbelow]

theorem clear_emptied (t : FileTree) (top : Location) : Emptied top t (t.clear top) := by
  have hat : ∀ loc, (t.clear top).entryAt loc =
      if top <:+ loc ∧ loc ≠ top then none else t.entryAt loc := by
    intro loc
    cases loc with
    | nil =>
        rw [entryAt_root, entryAt_root, if_neg]
        rintro ⟨htop, hne⟩
        exact hne (List.suffix_nil.1 htop).symm
    | cons n loc =>
        simp only [clear, entryAt_drop, Bool.and_eq_true, within_iff, decide_eq_true_eq]
  refine ⟨rfl, fun loc hbeside => ?_, .inl (entryAt_clear_self t top), fun loc hbelow hne => ?_⟩
  · rw [hat, if_neg fun h => hbeside h.1]
  · rw [hat, if_pos ⟨hbelow, hne⟩]

/-- Only the root has no name of its own. -/
theorem locate_ne_nil {n : Name} (hlast : p.names.getLast? = some n) (hn : n ≠ .up)
    (h : t.locate p = .ok top) : top ≠ [] := by
  rw [locate] at h
  split at h
  · exact absurd h (by simp)
  · simp only [hlast, if_neg hn] at h
    split at h
    · exact absurd h (by simp)
    · exact absurd h (by simp)
    · split at h
      · obtain rfl := Except.ok.inj h
        exact List.cons_ne_nil _ _
      · exact absurd h (by simp)

/-- **What is removed** is the directory at the end of the path, or what is below it. -/
theorem removeDirectory_removed (hlocate : t.locate p = .ok top) :
    Removed t p top (t.removeDirectory p).1 (t.removeDirectory p).2 := by
  rw [removeDirectory, hlocate]
  dsimp only
  split
  · next hdir =>
      -- Unless the path ends in a name, the directory stays.
      have hclear : (∀ n, p.names.getLast? = some n → n = .up) →
          Removed t p top (t.clear top) (.error .notRemovable) := by
        intro hlast
        refine ⟨⟨fun h => (by simp at h), fun ⟨_, n, hn, hup⟩ => absurd (hlast n hn) hup⟩,
          fun _ => ⟨clear_emptied t top, ?_⟩, fun h => absurd hdir h⟩
        simp [entryAt_clear_self, hdir]
      split
      · next hnone => exact hclear (by simp [hnone])
      · next n hlast =>
          by_cases hn : n = .up
          · rw [if_pos hn]
            exact hclear (by simp [hlast, hn])
          · rw [if_neg hn]
            have hne := locate_ne_nil hlast hn hlocate
            exact ⟨by simp [hdir, hlast, hn],
              fun _ => ⟨prune_emptied t hne, by simp [entryAt_prune_self hne]⟩,
              fun h => absurd hdir h⟩
  · next hlink => exact ⟨by simp [hlink], by simp [hlink], fun _ => rfl⟩
  · next hdir _ => exact ⟨⟨by simp, fun h => absurd h.1 hdir⟩, fun h => absurd h hdir, fun _ => rfl⟩

theorem namesOf_eq_append (t : FileTree) {n : Name} (hlast : p.names.getLast? = some n) :
    t.namesOf p = t.namesOf p.parent ++ [n] := by
  obtain ⟨names, hnames⟩ := List.getLast?_eq_some_iff.1 hlast
  have hparent : p.parent = ⟨p.anchor, names⟩ := by rw [Path.parent, hnames, List.dropLast_concat]
  have habs : p.parent.isAbsolute = p.isAbsolute := rfl
  rw [namesOf, namesOf, habs, hparent, hnames]
  split
  · rfl
  · exact (List.append_assoc _ _ _).symm

/-- A name that leads to an entry is that of one. -/
theorem isSome_of_walk {n : Name} {links : Nat} {toDirectory : Bool} {loc there : Location}
    (hup : n ≠ .up) (h : t.walk links toDirectory loc [n] = .ok (.entry there)) :
    (t.entryAt (n :: loc)).isSome = true := by
  obtain ⟨jump, hwalk⟩ := t.exists_walk_eq links
  rw [hwalk, follow_eq_ok_iff] at h
  cases h with
  | up _ _ => exact absurd rfl hup
  | link _ _ hentry _ => simp [hentry]
  | name _ _ hentry _ _ => simp [hentry]

/-- Without links, a path is located without looking at any file. -/
theorem locate_location (ht : t.LinkFree) (hcwd : t.cwdPath.Normal) (h : t.locate p = .ok top) :
    top = (Path.absolute t.cwdPath p).location := by
  rw [locate] at h
  split at h
  · exact absurd h (by simp)
  · split at h
    · next hlast =>
        have hnames : p.names = [] := List.getLast?_eq_none_iff.1 hlast
        obtain rfl := Except.ok.inj h
        rw [absolute_location, Path.foldl_push_plain, List.append_nil]
        · rw [namesOf, hnames]
          split
          · simp
          · rw [List.append_nil]
            exact hcwd.plain
    · next n hlast =>
        have hnames := namesOf_eq_append t hlast
        split at h
        · split at h
          · next loc hres =>
              obtain rfl := Except.ok.inj h
              exact resolve_location ht hres
          · exact absurd h (by simp)
          · exact absurd h (by simp)
        · next hn =>
            split at h
            · exact absurd h (by simp)
            · exact absurd h (by simp)
            · next loc hwalk =>
                split at h
                · obtain rfl := Except.ok.inj h
                  obtain ⟨jump, hjump⟩ := t.exists_walk_eq linkLimit
                  rw [hjump] at hwalk
                  have hloc : loc = _ := follow_location ht (by simp) hwalk
                  rw [absolute_location, hnames, List.foldl_append, ← hloc, List.foldl_cons,
                    List.foldl_nil, Path.push_of_ne_up hn]
                · exact absurd h (by simp)

/-- Where a path leads to something, its own end is found, whether it is a link or not. -/
theorem exists_locate {there : Location} (h : t.resolve p = .ok (.entry there)) :
    ∃ top, t.locate p = .ok top := by
  obtain ⟨hrefusal, hwalk⟩ := resolve_eq_ok_iff.1 h
  rw [locate, hrefusal]
  cases hlast : p.names.getLast? with
  | none => exact ⟨_, rfl⟩
  | some n =>
      by_cases hup : n = .up
      · simp only [if_pos hup, h]
        exact ⟨there, rfl⟩
      · rw [namesOf_eq_append t hlast] at hwalk
        obtain ⟨k, mid, hk, hpasses, -⟩ := passes_of_walk hwalk (by simp)
        obtain ⟨left, hleft⟩ := Nat.exists_eq_add_of_le hk
        rw [hleft, walk_append_of_passes hpasses (.inl (by simp))] at hwalk
        have hparent : t.walk linkLimit false [] (t.namesOf p.parent) = .ok (.entry mid) :=
          walk_of_passes hpasses hk (directory_of_walk hwalk)
        refine ⟨n :: mid, ?_⟩
        simp only [if_neg hup, hparent, if_pos (isSome_of_walk hup hwalk)]

end FileTree

namespace Command

variable {c : Command} {t : FileTree} {s : Settings} {b : Build}

/-! ## What is left -/

/-- What clearing leaves of a tree, and its result. Nothing is done unless it is asked for and there
is a directory, links followed, and then what is found at the path itself is removed. -/
structure Cleared (c : Command) (t : FileTree) (workingDir : Path) (t' : FileTree)
    (r : Except Fault Unit) : Prop where
  unasked : c.clean = false → t' = t ∧ r = .ok ()
  unknown : ∀ f, c.clean = true → t.isDirectory? workingDir = .error f → t' = t ∧ r = .error f
  absent : c.clean = true → t.isDirectory? workingDir = .ok false → t' = t ∧ r = .ok ()
  removed : c.clean = true → t.isDirectory? workingDir = .ok true →
    ∃ top, t.locate workingDir = .ok top ∧ Removed t workingDir top t' r

/-- The command comes to open a build, after what was to be removed is gone. -/
def Opens (c : Command) (t : FileTree) (s : Settings) (b : Build) : Prop :=
  (c.clear t s.workingDir).result = .ok () ∧
    Build.open? (c.clear t s.workingDir).tree s.source s.workingDir s.attributes s.encoding = .ok b

theorem exists_cleared (c : Command) (t : FileTree) (workingDir : Path) :
    ∃ r, c.Cleared t workingDir (c.clear t workingDir).tree r ∧
      (c.clear t workingDir).result = r.mapError .removal := by
  rw [clear]
  split
  · next hclean =>
      split
      · next f hdir => exact ⟨.error f, ⟨by simp [hclean], by simp [hdir], by simp [hdir],
          by simp [hdir]⟩, rfl⟩
      · next hdir => exact ⟨.ok (), ⟨by simp [hclean], by simp [hdir], by simp, by simp [hdir]⟩, rfl⟩
      · next hdir =>
          obtain ⟨there, hres, -⟩ := status?_eq_some_iff.1 (isDirectory?_eq_true_iff.1 hdir)
          obtain ⟨top, hlocate⟩ := exists_locate hres
          exact ⟨(t.removeDirectory workingDir).2, ⟨by simp [hclean], by simp [hdir],
            by simp [hdir], fun _ _ => ⟨top, hlocate, removeDirectory_removed hlocate⟩⟩, rfl⟩
  · next hclean => exact ⟨.ok (), ⟨by simp, by simp [hclean], by simp, by simp [hclean]⟩, rfl⟩

theorem Cleared.cwd {workingDir : Path} {t' : FileTree} {r : Except Fault Unit}
    (h : c.Cleared t workingDir t' r) : t'.cwd = t.cwd := by
  cases hclean : c.clean with
  | false => rw [(h.unasked hclean).1]
  | true =>
      cases hdir : t.isDirectory? workingDir with
      | error f => rw [(h.unknown f hclean hdir).1]
      | ok isDirectory =>
          cases isDirectory with
          | false => rw [(h.absent hclean hdir).1]
          | true =>
              obtain ⟨top, -, hremoved⟩ := h.removed hclean hdir
              by_cases htop : t.entryAt top = some .directory
              · exact (hremoved.emptied htop).1.cwd
              · rw [hremoved.kept htop]

/-- Nothing is made before a build is opened. -/
theorem build_leaves (c : Command) (t : FileTree) (s : Settings) :
    (∀ e, Build.open? t s.source s.workingDir s.attributes s.encoding = .error e →
      (c.build t s).result = .error (.build e) ∧ (c.build t s).tree = t) ∧
    ∀ b, Build.open? t s.source s.workingDir s.attributes s.encoding = .ok b →
      (c.build t s).result = ((b.run t).result.map fun _ => ()).mapError .build ∧
        (c.build t s).tree = (b.run t).tree := by
  constructor
  · intro e hopen
    simp [build, hopen]
  · intro b hopen
    simp only [build, hopen]
    cases hrun : (b.run t).result with
    | error e => exact ⟨rfl, rfl⟩
    | ok pages => exact ⟨rfl, rfl⟩

theorem perform_of_clear_error {e : CommandError} (hskip : s.skip = false)
    (h : (c.clear t s.workingDir).result = .error e) :
    (c.perform t s).result = .error e ∧ (c.perform t s).tree = (c.clear t s.workingDir).tree := by
  simp [perform, hskip, h]

theorem perform_of_clear_ok (hskip : s.skip = false)
    (h : (c.clear t s.workingDir).result = .ok ()) :
    (c.perform t s).result = (c.build (c.clear t s.workingDir).tree s).result ∧
      (c.perform t s).tree = (c.build (c.clear t s.workingDir).tree s).tree := by
  simp [perform, hskip, h]

/-- **What the command leaves, and when it fails.** Without settings, or if they say to skip, the
tree is as it was. Else the working directory is cleared. If that fails, or no build is opened then,
the command stops with this error and leaves the tree as the clearing has. Otherwise it leaves what
the build leaves of it, and fails just if the build does. -/
theorem run_leaves (homes : Settings.Homes) (c : Command) (t : FileTree) (lib : Settings.Library) :
    (∀ e, Settings.resolve homes t c.choices lib = .error e →
      (c.run homes t lib).result = .error (.settings e) ∧ (c.run homes t lib).tree = t) ∧
    ∀ s, Settings.resolve homes t c.choices lib = .ok s →
      (s.skip = true → (c.run homes t lib).result = .ok () ∧ (c.run homes t lib).tree = t) ∧
      (s.skip = false → ∃ cleared r, c.Cleared t s.workingDir cleared r ∧
        (∀ f, r = .error f →
          (c.run homes t lib).result = .error (.removal f) ∧ (c.run homes t lib).tree = cleared) ∧
        (r = .ok () →
          (∀ e, Build.open? cleared s.source s.workingDir s.attributes s.encoding = .error e →
            (c.run homes t lib).result = .error (.build e) ∧ (c.run homes t lib).tree = cleared) ∧
          ∀ b, Build.open? cleared s.source s.workingDir s.attributes s.encoding = .ok b →
            (c.run homes t lib).result = ((b.run cleared).result.map fun _ => ()).mapError .build ∧
              (c.run homes t lib).tree = (b.run cleared).tree)) := by
  refine ⟨fun e he => ?_, fun s hs => ⟨fun hskip => ?_, fun hskip => ?_⟩⟩
  · rw [run_of_settings_error he]
    exact ⟨rfl, rfl⟩
  · exact (run_of_skip hs hskip).symm
  · have hrun : c.run homes t lib = c.perform t s := by rw [run, hs]
    rw [hrun]
    obtain ⟨r, hcleared, hresult⟩ := exists_cleared c t s.workingDir
    refine ⟨_, r, hcleared, ?_, ?_⟩
    · rintro f rfl
      exact perform_of_clear_error hskip hresult
    · rintro rfl
      obtain ⟨hperform, htree⟩ := perform_of_clear_ok hskip hresult
      rw [hperform, htree]
      exact build_leaves c _ s

/-- A working directory with the copy of an earlier run, and no source. -/
def staleTree : FileTree := .ofFiles [("/work/old.adoc", "old\n")]

/-- A command that is to remove the working directory. -/
def stale : Command :=
  ⟨⟨none, some (.ofText "/absent".toList), some (.ofText "/work".toList), none, []⟩, true, false⟩

/-- There is no source, and the working directory is gone when that is found out. -/
theorem stale_cleared_before_checks :
    let homes : Settings.Homes := fun _ => none
    let copy : Location := (Path.ofText "/work/old.adoc".toList).location
    ∃ s, Settings.resolve homes staleTree stale.choices = .ok s ∧ s.skip = false ∧
      (Build.open? staleTree s.source s.workingDir s.attributes s.encoding).isOk = false ∧
      (stale.run homes staleTree).result =
        .error (.build (.sourceMissing (.ofText "/absent".toList))) ∧
      staleTree.entryAt copy = some (.file "old\n".toUTF8.toList) ∧
      (stale.run homes staleTree).tree.entryAt copy = none := by
  intro homes copy
  refine ⟨{ Settings.ofSource (.ofText "/absent".toList) with workingDir := .ofText "/work".toList },
    rfl, rfl, ?_⟩
  decide +kernel

end Command

end Folio

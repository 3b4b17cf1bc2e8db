import Folio.Proofs.Clearing
import Folio.Proofs.Indifference
import Folio.Proofs.NullFree
import Folio.Proofs.Quiet

/-!
# A cleared working directory holds what has been written, and nothing else

A command may be asked to clear the working directory first. **What it leaves then does not depend
on what stood there.**

**Theorem (`Command.run_clean`).** Let the tree have no links, and let the path of the working
directory be normalized. If the command ends well, it leaves the tree that the same build leaves on
a tree without the working directory, in every entry, with the same pages, the same list of copies
and the same events. The files at and below the working directory are those at the places in the
list.

A directory is removed with all that stands below it. If there is no directory to remove, the path
leads nowhere, and then nothing stands there that a path with a few more names could lead to: the
names of a normalized path go up first and then down (`Path.exists_ups`), so that the way is the one
that the names spell. Only a name that no entry can have would make a difference, and a tree on a
disk has none (`FileTree.Storable`).
-/

namespace Folio

open FileTree

/-! ## The names of a normalized path -/

namespace Path

theorem exists_ups_foldl (names : List Name) (k : Nat) {stack : List Name}
    (hstack : Name.up ∉ stack) :
    ∃ k' stack', Name.up ∉ stack' ∧
      names.foldl (push false) (stack ++ List.replicate k .up) =
        stack' ++ List.replicate k' .up := by
  induction names generalizing k stack with
  | nil => exact ⟨k, stack, hstack, rfl⟩
  | cons n names ih =>
      rw [List.foldl_cons]
      by_cases hn : n = .up
      · subst hn
        cases stack with
        | nil =>
            have hpush : push false (List.replicate k .up) .up = List.replicate (k + 1) .up := by
              cases k <;> simp [push, List.replicate_succ]
            rw [List.nil_append, hpush]
            have hempty : Name.up ∉ ([] : List Name) := List.not_mem_nil
            have hrest := ih (k + 1) hempty
            exact hrest
        | cons top stack =>
            rw [List.mem_cons, not_or] at hstack
            rw [List.cons_append, push_up_cons (Ne.symm hstack.1)]
            exact ih k hstack.2
      · rw [push_of_ne_up hn, ← List.cons_append]
        exact ih k (by simp [hstack, Ne.symm hn])

/-- **A normalized path goes up first and then down.** -/
theorem exists_ups {p : Path} (h : p.normalize = p) :
    ∃ k names, Name.up ∉ names ∧ p.names = List.replicate k .up ++ names := by
  by_cases habs : p.isAbsolute = true
  · exact ⟨0, p.names, (h ▸ normalize_normal habs : p.Normal).plain, by simp⟩
  · have hempty : Name.up ∉ ([] : List Name) := List.not_mem_nil
    obtain ⟨k, stack, hstack, hfold⟩ := exists_ups_foldl p.names 0 hempty
    have hnames := congrArg Path.names h
    rw [normalize] at hnames
    simp only [Bool.not_eq_true] at habs
    simp only [habs, List.replicate_zero, List.append_nil] at hnames hfold
    rw [hfold, List.reverse_append, List.reverse_replicate] at hnames
    exact ⟨k, stack.reverse, by simpa using hstack, hnames.symm⟩

end Path

/-! ## Where nothing is found -/

/-- An entry can have the name: it is no step upwards, it is not too long, and all of its characters
are accepted in a path (`FileTree.refusal?`). -/
structure Name.Storable (n : Name) : Prop where
  plain : n ≠ .up
  short : n.text.byteLength ≤ nameLimit
  accepted : ∀ c ∈ n.text, c ≠ '\x00' ∧ Half.isHalf c = false

-- The characters are those of a list here: there are instances that go through all characters.
instance (n : Name) : Decidable n.Storable :=
  decidable_of_iff (n ≠ .up ∧ n.text.byteLength ≤ nameLimit ∧
      n.text.all (fun c => c != '\x00' && !Half.isHalf c) = true)
    ⟨fun h => ⟨h.1, h.2.1, by simpa using h.2.2⟩,
      fun h => ⟨h.plain, h.short, by simpa using h.accepted⟩⟩

namespace FileTree

variable {t : FileTree} {p : Path} {loc : Location}

/-- The tree can stand on a disk: its entries have names that entries can have, and the current
directory is there. -/
structure Storable (t : FileTree) : Prop where
  names : ∀ loc, (t.entryAt loc).isSome → ∀ n ∈ loc, n.Storable
  cwd : t.entryAt t.cwdPath.location = some .directory

theorem storable_of_entries (hnames : ∀ loc ∈ t.entries.keys, ∀ n ∈ loc, n.Storable)
    (hcwd : t.entryAt t.cwdPath.location = some .directory) : t.Storable := by
  refine ⟨fun loc hloc => ?_, hcwd⟩
  cases loc with
  | nil => simp
  | cons n loc =>
      rw [entryAt_cons, OrderedMap.get?_isSome] at hloc
      exact hnames _ hloc

theorem Storable.cwd_storable (h : t.Storable) : ∀ n ∈ t.cwd, n.Storable := fun n hn =>
  h.names t.cwdPath.location (by rw [h.cwd]; rfl) n (List.mem_reverse.2 hn)

theorem Storable.cwd_plain (h : t.Storable) : Name.up ∉ t.cwd := fun hup =>
  (h.cwd_storable _ hup).plain rfl

/-- Steps upwards from a directory are steps to directories. -/
theorem follow_ups {jump : Bool → Location → List Name → Except Fault Place} {toDirectory : Bool}
    (hdir : t.entryAt loc = some .directory) (k : Nat) (names : List Name) :
    t.follow jump toDirectory loc (List.replicate k .up ++ names) =
      t.follow jump toDirectory (loc.drop k) names := by
  induction k generalizing loc with
  | zero => rfl
  | succ k ih =>
      rw [List.replicate_succ, List.cons_append, follow, if_neg (by simp [hdir]), if_pos rfl,
        ih (directory_above hdir (List.tail_suffix loc)), List.drop_tail]

theorem foldl_push_ups {stack : List Name} (hstack : Name.up ∉ stack) (k : Nat) :
    (List.replicate k Name.up).foldl (Path.push true) stack = stack.drop k := by
  induction k generalizing stack with
  | zero => rfl
  | succ k ih =>
      have hpush : Path.push true stack .up = stack.tail := by
        cases stack with
        | nil => rfl
        | cons top stack => exact Path.push_up_cons fun htop => hstack (by simp [htop])
      rw [List.replicate_succ, List.foldl_cons, hpush,
        ih fun hup => hstack (List.mem_of_mem_tail hup), List.drop_tail]

/-- The location of a relative path whose names go up and then down. -/
theorem location_of_ups (hcwd : Name.up ∉ t.cwd) (hp : p.isAbsolute = false) {k : Nat}
    {names : List Name} (hplain : Name.up ∉ names)
    (hnames : p.names = List.replicate k .up ++ names) :
    (Path.absolute t.cwdPath p).location = names.reverse ++ t.cwdPath.location.drop k := by
  have hcwd' : Name.up ∉ t.cwd.reverse := fun hup => hcwd (List.mem_reverse.1 hup)
  rw [absolute_location, namesOf, hp, if_neg (by simp), hnames, List.foldl_append,
    List.foldl_append,
    Path.foldl_push_plain hcwd, List.append_nil, foldl_push_ups hcwd',
    Path.foldl_push_plain hplain]
  rfl

/-- What is told at the end of such names is what stands there, if it can be told. -/
theorem told_follow_of_ok (ht : t.LinkFree)
    {jump : Bool → Location → List Name → Except Fault Place}
    {names : List Name} (hplain : Name.up ∉ names) {e : Option Entry}
    (h : t.told (t.follow jump false loc names) = .ok e) :
    e = t.entryAt (names.reverse ++ loc) := by
  rcases told_follow ht hplain with hlong | htold
  · rw [hlong] at h
    exact absurd h (by simp [told, Fault.isAbsence])
  · exact Except.ok.inj (h.symm.trans htold)

/-- **What is told at the end of a normalized path**, if it can be told, is what stands at its
location. -/
theorem told_walk (ht : t.LinkFree) (h : t.Storable) (hp : p.normalize = p) {e : Option Entry}
    (htold : t.told (t.walk linkLimit false [] (t.namesOf p)) = .ok e) :
    e = t.entryAt (Path.absolute t.cwdPath p).location := by
  obtain ⟨jump, hwalk⟩ := t.exists_walk_eq linkLimit
  rw [hwalk, namesOf] at htold
  by_cases habs : p.isAbsolute = true
  · have hnormal : p.Normal := hp ▸ Path.normalize_normal habs
    rw [if_pos habs] at htold
    rw [hnormal.absolute_eq, told_follow_of_ok ht hnormal.plain htold, List.append_nil,
      Path.location]
  · obtain ⟨k, names, hplain, hnames⟩ := Path.exists_ups hp
    have hcwd := h.cwd_plain
    have hdir : t.entryAt (t.cwd.reverse ++ []) = some .directory := by
      rw [List.append_nil]
      exact h.cwd
    rw [if_neg habs, hnames, follow_append ht hcwd (fun n hn => (h.cwd_storable n hn).short)
      (by rw [hdir]; rfl), follow_ups hdir] at htold
    rw [location_of_ups hcwd (by simpa using habs) hplain hnames, told_follow_of_ok ht hplain htold,
      List.append_nil]
    rfl

/-- The location of a normalized path has all its names that do not lead upwards. -/
theorem mem_location_of_mem_names (hcwd : Name.up ∉ t.cwd) (hp : p.normalize = p) {n : Name}
    (hn : n ∈ p.names) (hne : n ≠ .up) : n ∈ (Path.absolute t.cwdPath p).location := by
  by_cases habs : p.isAbsolute = true
  · have hnormal : p.Normal := hp ▸ Path.normalize_normal habs
    rw [hnormal.absolute_eq]
    exact List.mem_reverse.2 hn
  · obtain ⟨k, names, hplain, hnames⟩ := Path.exists_ups hp
    rw [location_of_ups hcwd (by simpa using habs) hplain hnames]
    rw [hnames, List.mem_append, List.mem_replicate] at hn
    exact List.mem_append_left _ (List.mem_reverse.2 (hn.resolve_left fun hup => hne hup.2))

/-- A path that leads to a location with an entry is refused for its length only. -/
theorem refusal?_of_entryAt (h : t.Storable) (hp : p.normalize = p)
    (hentry : (t.entryAt (Path.absolute t.cwdPath p).location).isSome) :
    refusal? p = none ∨ refusal? p = some .tooLong := by
  have hchar : ∀ c ∈ p.toText, c ≠ '\x00' ∧ Half.isHalf c = false := by
    intro c hc
    by_cases hslash : c = '/'
    · exact hslash ▸ by decide
    · by_cases hdot : c = '.'
      · exact hdot ▸ by decide
      · obtain ⟨n, hn, hcn⟩ := (Path.mem_toText hslash hdot).1 hc
        have hne : n ≠ .up := by
          rintro rfl
          exact hdot (by simpa [Name.up] using hcn)
        exact (h.names _ hentry n
          (mem_location_of_mem_names h.cwd_plain hp hn hne)).accepted c hcn
  have hhalf : p.toText.any Half.isHalf = false := by
    rw [List.any_eq_false]
    exact fun c hc => by simp [(hchar c hc).2]
  have hnull : '\x00' ∉ p.toText := fun hc => (hchar _ hc).1 rfl
  rw [refusal?, hhalf, if_neg (by simp), if_neg hnull]
  split
  · exact .inr rfl
  · exact .inl rfl

/-- **If nothing is found at a normalized path, nothing stands at its location.** -/
theorem entryAt_of_status?_none (ht : t.LinkFree) (h : t.Storable) (hp : p.normalize = p)
    (hnone : t.status? p = .ok none) : t.entryAt (Path.absolute t.cwdPath p).location = none := by
  by_contra hentry
  rw [← ne_eq, Option.ne_none_iff_isSome] at hentry
  rw [status?_eq_told, resolve] at hnone
  rcases refusal?_of_entryAt h hp hentry with hrefusal | hrefusal
  · simp only [hrefusal] at hnone
    rw [← told_walk ht h hp hnone] at hentry
    simp at hentry
  · simp [hrefusal, told, Fault.isAbsence] at hnone

/-- A directory that is removed is gone with all that stands below it. -/
theorem removeDirectory_eq_ok (h : (t.removeDirectory p).2 = .ok ()) :
    ∃ top, t.locate p = .ok top ∧ (t.removeDirectory p).1 = t.prune top := by
  rw [removeDirectory] at h ⊢
  split at h
  · cases h
  · next top hlocate =>
      refine ⟨top, hlocate, ?_⟩
      split at h
      · split at h
        · cases h
        · next n hlast =>
            split at h
            · cases h
            · next hn => simp [*]
      · cases h
      · cases h

/-- Nothing is taken away where nothing stands. -/
theorem entryAt_prune_of_none {top : Location} (hnone : t.entryAt top = none) (loc : Location) :
    (t.prune top).entryAt loc = t.entryAt loc := by
  cases loc with
  | nil => rfl
  | cons n loc =>
      rw [entryAt_prune]
      split
      · next hwithin => exact (entryAt_below_none hnone (within_iff.1 hwithin)).symm
      · rfl

theorem entryAt_prune_ne_file {top : Location} (hloc : top <:+ loc) (content : List UInt8) :
    (t.prune top).entryAt loc ≠ some (.file content) := by
  cases loc with
  | nil => simp
  | cons n loc => simp [entryAt_prune, within_iff, hloc]

theorem LinkFree.prune (ht : t.LinkFree) (top : Location) : (t.prune top).LinkFree := by
  intro loc target hlink
  cases loc with
  | nil => exact absurd hlink (by simp)
  | cons n loc =>
      rw [entryAt_prune] at hlink
      split at hlink
      · cases hlink
      · exact ht _ _ hlink

end FileTree

/-! ## The cleared tree -/

namespace Command

variable {c : Command} {t : FileTree} {s : Settings} {b : Build}

/-- **A build is opened on the tree without its working directory.** -/
theorem Opens.entryAt_clear (hclean : c.clean = true) (ht : t.LinkFree) (h : t.Storable)
    (hnormal : s.workingDir.normalize = s.workingDir) (hopens : c.Opens t s b) (loc : Location) :
    (c.clear t s.workingDir).tree.entryAt loc = (t.prune b.workingDir.location).entryAt loc := by
  obtain ⟨hclear, hopen⟩ := hopens
  rw [clear, if_pos hclean] at hclear hopen ⊢
  cases hdir : t.isDirectory? s.workingDir with
  | error f =>
      rw [hdir] at hclear
      cases hclear
  | ok isDirectory =>
      cases isDirectory with
      | false =>
          simp only [hdir] at hopen ⊢
          rw [Build.open?_eq_ok hopen]
          obtain ⟨_, -, hopen⟩ := exists_of_bind_eq_ok hopen
          obtain ⟨_, hcheck, -⟩ := exists_of_bind_eq_ok hopen
          have hnone := (Build.checkWorkingDir_eq_ok_iff.1 hcheck).resolve_right fun hstatus => by
            rw [isDirectory?_eq_true_iff.2 hstatus] at hdir
            cases hdir
          exact (entryAt_prune_of_none (entryAt_of_status?_none ht h hnormal hnone) loc).symm
      | true =>
          simp only [hdir] at hclear hopen ⊢
          have hremoved : (t.removeDirectory s.workingDir).2 = .ok () := by
            cases hresult : (t.removeDirectory s.workingDir).2 with
            | error f =>
                rw [hresult] at hclear
                cases hclear
            | ok _ => rfl
          obtain ⟨top, hlocate, hpruned⟩ := removeDirectory_eq_ok hremoved
          rw [hpruned] at hopen ⊢
          rw [Build.open?_eq_ok hopen, locate_location ht ⟨rfl, h.cwd_plain⟩ hlocate]
          rfl

theorem clear_cwd (c : Command) (t : FileTree) (workingDir : Path) :
    (c.clear t workingDir).tree.cwd = t.cwd := by
  obtain ⟨r, hcleared, -⟩ := exists_cleared c t workingDir
  exact hcleared.cwd

/-- A command that ends well has opened a build, and has run it on the cleared tree. -/
theorem perform_eq_ok (hskip : s.skip = false) (hok : (c.perform t s).result = .ok ()) :
    ∃ b pages, c.Opens t s b ∧ (b.run (c.clear t s.workingDir).tree).result = .ok pages ∧
      (c.perform t s).tree = (b.run (c.clear t s.workingDir).tree).tree := by
  rw [perform, if_neg (by simp [hskip])] at hok ⊢
  cases hclear : (c.clear t s.workingDir).result with
  | error e =>
      simp only [hclear] at hok
      cases hok
  | ok _ =>
      simp only [hclear, build] at hok ⊢
      cases hopen : Build.open? (c.clear t s.workingDir).tree s.source s.workingDir s.attributes
          s.encoding with
      | error e =>
          simp only [hopen] at hok
          cases hok
      | ok b =>
          simp only [hopen] at hok ⊢
          cases hrun : (b.run (c.clear t s.workingDir).tree).result with
          | error e =>
              simp only [hrun] at hok
              cases hok
          | ok pages => exact ⟨b, pages, ⟨hclear, hopen⟩, hrun, rfl⟩

end Command

namespace Build

variable {b : Build} {t u : FileTree} {loc : Location}

/-- Builds on trees with the same entries do the same. -/
theorem run_congr (hcwd : u.cwd = t.cwd) (hentry : ∀ loc, u.entryAt loc = t.entryAt loc) :
    (∀ source workingDir attributes encoding,
        open? u source workingDir attributes encoding =
          open? t source workingDir attributes encoding) ∧
      (b.run u).events = (b.run t).events ∧ (b.run u).written = (b.run t).written ∧
      (b.run u).result = (b.run t).result ∧
      ∀ loc, (b.run u).tree.entryAt loc = (b.run t).tree.entryAt loc := by
  have halike : Alike t u := ⟨hcwd, fun loc => hentry loc ▸ Entry.Similar.refl (fun _ => trivial) _⟩
  obtain ⟨hopen, -, hevents, hwritten, hresult, hleft⟩ :=
    run_indifferent (b := b) halike fun loc _ => hentry loc
  refine ⟨hopen, hevents, hwritten, hresult, fun loc => ?_⟩
  rcases hleft loc with hsame | ⟨-, hstart, hstart'⟩
  · exact hsame
  · rw [hstart, hstart', hentry]

/-- **Where no file has stood, there are only the copies.** -/
theorem file_iff_written (hb : b.Live) (ht : t.LinkFree) (hrun : (b.run t).result.isOk)
    (hfirst : b.written = []) (hnone : ∀ content, t.entryAt loc ≠ some (.file content)) :
    (∃ content, (b.run t).tree.entryAt loc = some (.file content)) ↔
      ∃ p ∈ (b.run t).written, p.location = loc := by
  constructor
  · rintro ⟨content, hfile⟩
    rcases run_changes_written hb ht hrun loc with
      hsame | ⟨p, hp, hloc, -⟩ | ⟨p, -, -, -, hdir⟩
    · exact absurd (hsame ▸ hfile) (hnone content)
    · exact ⟨p, hp.1, hloc.symm⟩
    · rw [hdir] at hfile
      cases hfile
  · rintro ⟨p, hp, rfl⟩
    obtain ⟨v, -, -, file, -, out, bytes, -, -, hfile⟩ :=
      exists_holds hb ht hrun hp (hfirst ▸ List.not_mem_nil)
    exact ⟨bytes, hfile⟩

end Build

namespace Command

variable {homes : Settings.Homes} {c : Command} {t : FileTree} {s : Settings}
  {lib : Settings.Library}

/-- **A cleared working directory holds what has been written, and nothing else.** The files at and
below it are the copies, and the command leaves, in all entries, what the build leaves on the tree
without the working directory. -/
theorem run_clean (hclean : c.clean = true) (ht : t.LinkFree) (h : t.Storable)
    (hs : Settings.resolve homes t c.choices lib = .ok s) (hskip : s.skip = false)
    (hnormal : s.workingDir.normalize = s.workingDir)
    (hok : (c.run homes t lib).result = .ok ()) :
    ∃ b pages, c.Opens t s b ∧
      let done := b.run (c.clear t s.workingDir).tree
      let bare := t.prune b.workingDir.location
      let fresh := b.run bare
      done.result = .ok pages ∧ (c.run homes t lib).tree = done.tree ∧
      (∀ loc, b.workingDir.location <:+ loc →
        ((∃ content, (c.run homes t lib).tree.entryAt loc = some (.file content)) ↔
          ∃ p ∈ done.written, p.location = loc)) ∧
      Build.open? bare s.source s.workingDir s.attributes s.encoding = .ok b ∧
      fresh.result = .ok pages ∧ fresh.written = done.written ∧ fresh.events = done.events ∧
      ∀ loc, (c.run homes t lib).tree.entryAt loc = fresh.tree.entryAt loc := by
  have hrun : c.run homes t lib = c.perform t s := by rw [run, hs]
  rw [hrun] at hok ⊢
  obtain ⟨b, pages, hopens, hpages, htree⟩ := perform_eq_ok hskip hok
  have hcleared := hopens.entryAt_clear hclean ht h hnormal
  obtain ⟨hopen, hevents, hwritten, hresult, hsame⟩ :=
    Build.run_congr (b := b) (t := t.prune b.workingDir.location)
      (clear_cwd c t s.workingDir) hcleared
  have hlive : b.Live := .opened hopens.2
  have hfree : (c.clear t s.workingDir).tree.LinkFree := fun loc target hlink =>
    ht.prune b.workingDir.location loc target (hcleared loc ▸ hlink)
  have hdone : (b.run (c.clear t s.workingDir).tree).result.isOk := by
    rw [hpages]
    rfl
  have hfirst : b.written = [] := by rw [Build.open?_eq_ok hopens.2]
  refine ⟨b, pages, hopens, hpages, htree, fun loc hloc => ?_, by rw [← hopen]; exact hopens.2,
    by rw [← hresult, hpages], hwritten.symm, hevents.symm, fun loc => by rw [htree, hsame]⟩
  rw [htree]
  exact Build.file_iff_written hlive hfree hdone hfirst fun content =>
    hcleared loc ▸ entryAt_prune_ne_file hloc content

/-- Two documents, and what an earlier run has left in the working directory. -/
def staleCopiesTree : FileTree :=
  .ofFiles [("/docs/index.adoc", "include::page.adoc[]\n"), ("/docs/page.adoc", "= P\n"),
    ("/work/index.adoc", "old\n"), ("/work/gone/old.adoc", "old\n")]

/-- A command that is to remove the working directory and to make it anew. -/
def renew : Command :=
  ⟨⟨none, some (.ofText "docs/index.adoc".toList), some (.ofText "work".toList), none, []⟩,
    true, false⟩

def renewSettings : Settings :=
  { Settings.ofSource (.ofText "docs/index.adoc".toList) with workingDir := .ofText "work".toList }

theorem renew_run_clean :
    let homes : Settings.Homes := fun _ => none
    let t := staleCopiesTree
    let s := renewSettings
    (t.LinkFree ∧ t.Storable ∧ Settings.resolve homes t renew.choices = .ok s ∧ s.skip = false ∧
      s.workingDir.normalize = s.workingDir ∧ (renew.run homes t).result = .ok ()) ∧
    ∃ b pages, renew.Opens t s b ∧
      let done := b.run (renew.clear t s.workingDir).tree
      let bare := t.prune b.workingDir.location
      let fresh := b.run bare
      done.result = .ok pages ∧ (renew.run homes t).tree = done.tree ∧
      (∀ loc, b.workingDir.location <:+ loc →
        ((∃ content, (renew.run homes t).tree.entryAt loc = some (.file content)) ↔
          ∃ p ∈ done.written, p.location = loc)) ∧
      Build.open? bare s.source s.workingDir s.attributes s.encoding = .ok b ∧
      fresh.result = .ok pages ∧ fresh.written = done.written ∧ fresh.events = done.events ∧
      ∀ loc, (renew.run homes t).tree.entryAt loc = fresh.tree.entryAt loc := by
  intro homes t s
  have hfree : t.LinkFree := linkFree_of_entries (by decide +kernel)
  have hstorable : t.Storable := storable_of_entries (by decide +kernel) (by decide +kernel)
  have hsettings : Settings.resolve homes t renew.choices = .ok s := rfl
  have hnormal : s.workingDir.normalize = s.workingDir := by decide +kernel
  have hok : (renew.run homes t).result = .ok () := by decide +kernel
  exact ⟨⟨hfree, hstorable, hsettings, rfl, hnormal, hok⟩,
    run_clean rfl hfree hstorable hsettings rfl hnormal hok⟩

end Command

end Folio

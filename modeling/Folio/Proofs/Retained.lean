import Folio.Proofs.Answers
import Folio.Proofs.Visits

/-!
# What a build leaves in place

A build makes directories and writes files, and it removes nothing. So **every entry stays**: a
directory remains a directory, a link remains the same link, and a file remains a file, with
another content perhaps (`FileTree.Keeps`). New entries come behind the old ones
(`FileTree.Retains`).

Each operation on a file tree is one of two steps, a new entry at a free name or a new content for a
file, and both retain the tree. The rest is put together from `refl` and `trans`: `write_retains`,
`Relink.copyEach_retains`, `Build.run_retains`.

What a path leads to is kept as well (`Keeps.resolve`), also by a path that goes up and down.
-/

namespace Folio

/-- Two maps with the same keys, in the same order, and the same values are equal. -/
theorem OrderedMap.ext_of_keys {α β : Type} [DecidableEq α] {m m' : OrderedMap α β}
    (hkeys : m.keys = m'.keys) (hget : ∀ k, m.get? k = m'.get? k) : m = m' := by
  have hlength : m.entries.length = m'.entries.length := by
    simpa [keys] using congrArg List.length hkeys
  have hentries : m.entries = m'.entries := by
    refine List.ext_getElem hlength fun i hi hi' => ?_
    have hkey : m.entries[i].1 = m'.entries[i].1 := by
      have h : m.keys[i]? = m'.keys[i]? := by rw [hkeys]
      simpa [keys, hi, hi'] using h
    have hvalue : m.get? m.entries[i].1 = some m.entries[i].2 :=
      get?_eq_some_iff.2 (List.getElem_mem hi)
    have hvalue' : m'.get? m'.entries[i].1 = some m'.entries[i].2 :=
      get?_eq_some_iff.2 (List.getElem_mem hi')
    rw [hget, hkey, hvalue'] at hvalue
    exact Prod.ext hkey (Option.some.inj hvalue).symm
  cases m
  cases m'
  obtain rfl : _ = _ := hentries
  rfl

/-- Two entries of one kind: the same one, or two files. -/
def Entry.Alike : Entry → Entry → Prop
  | .file _, .file _ => True
  | e, e' => e = e'

namespace Entry

variable {e e' e'' : Entry}

theorem Alike.refl (e : Entry) : e.Alike e := by cases e <;> simp [Alike]

theorem alike_iff :
    e.Alike e' ↔ e = e' ∨ ∃ content content', e = .file content ∧ e' = .file content' := by
  cases e <;> cases e' <;> simp [Alike]

theorem Alike.trans (h : e.Alike e') (h' : e'.Alike e'') : e.Alike e'' := by
  cases e <;> cases e' <;> cases e'' <;> simp_all [Alike]

theorem Alike.of_directory (h : Entry.directory.Alike e) : e = .directory := by
  cases e <;> simp_all [Alike]

theorem Alike.of_file {content : List UInt8} (h : (Entry.file content).Alike e) :
    ∃ content', e = .file content' := by
  cases e <;> simp_all [Alike]

end Entry

namespace FileTree

variable {t u w : FileTree}

/-- One tree keeps what another one has: every entry is still there, and is of the same kind. -/
structure Keeps (t u : FileTree) : Prop where
  cwd : u.cwd = t.cwd
  entry : ∀ {loc e}, t.entryAt loc = some e → ∃ e', u.entryAt loc = some e' ∧ e.Alike e'

/-- One tree keeps what another one has, and its new entries come behind those. -/
structure Retains (t u : FileTree) : Prop extends Keeps t u where
  keys : t.entries.keys <+: u.entries.keys
  root : u.entries.get? [] = t.entries.get? []

/-! ## Trees that keep what others have -/

namespace Keeps

theorem refl (t : FileTree) : Keeps t t := ⟨rfl, fun h => ⟨_, h, .refl _⟩⟩

theorem trans (h : Keeps t u) (h' : Keeps u w) : Keeps t w := by
  refine ⟨h'.cwd.trans h.cwd, fun hentry => ?_⟩
  obtain ⟨e', he', hlike⟩ := h.entry hentry
  obtain ⟨e'', he'', hlike'⟩ := h'.entry he'
  exact ⟨e'', he'', hlike.trans hlike'⟩

theorem directory (h : Keeps t u) {loc : Location} (hdir : t.entryAt loc = some .directory) :
    u.entryAt loc = some .directory := by
  obtain ⟨e, he, hlike⟩ := h.entry hdir
  rw [he, hlike.of_directory]

theorem file (h : Keeps t u) {loc : Location} {content : List UInt8}
    (hfile : t.entryAt loc = some (.file content)) :
    ∃ content', u.entryAt loc = some (.file content') := by
  obtain ⟨e, he, hlike⟩ := h.entry hfile
  obtain ⟨content', rfl⟩ := hlike.of_file
  exact ⟨content', he⟩

theorem link (h : Keeps t u) {loc : Location} {target : Text}
    (hlink : t.entryAt loc = some (.link target)) : u.entryAt loc = some (.link target) := by
  obtain ⟨e, he, hlike⟩ := h.entry hlink
  rw [Entry.alike_iff] at hlike
  rcases hlike with rfl | ⟨_, _, hfile, -⟩
  · exact he
  · exact absurd hfile (by simp)

theorem linkFree (h : Keeps t u) (hu : u.LinkFree) : t.LinkFree :=
  fun loc target hlink => hu loc target (h.link hlink)

theorem none (h : Keeps t u) {loc : Location} (hnone : u.entryAt loc = .none) :
    t.entryAt loc = .none := by
  cases hentry : t.entryAt loc with
  | none => rfl
  | some e =>
      obtain ⟨e', he', -⟩ := h.entry hentry
      exact absurd (hnone.symm.trans he') (by simp)

/-- Names still lead where they led. A free name leads to an entry when there is a file. -/
theorem follow (h : Keeps t u) {jump jump' : Bool → Location → List Name → Except Fault Place}
    {place : Place}
    (hjump : ∀ toDirectory loc names, jump toDirectory loc names = .ok place →
      jump' toDirectory loc names = .ok (.entry place.location))
    (hfree : ∀ loc n, place = .free loc n → ∃ content, u.entryAt (n :: loc) = some (.file content))
    {toDirectory : Bool} {loc : Location} {names : List Name}
    (hway : t.follow jump toDirectory loc names = .ok place) :
    u.follow jump' toDirectory loc names = .ok (.entry place.location) := by
  rw [follow_eq_ok_iff] at hway ⊢
  induction hway with
  | here hend => exact .here fun hto => h.directory (hend hto)
  | up hdir _ ih => exact .up (h.directory hdir) (ih hjump hfree)
  | free hto _ hup hshort _ =>
      obtain ⟨content, hfile⟩ := hfree _ _ rfl
      exact .name hup hshort hfile rfl (.here (by simp [hto]))
  | link hup hshort hentry hto => exact .link hup hshort (h.link hentry) (hjump _ _ _ hto)
  | @name _ _ _ e _ hup hshort hentry hlink _ ih =>
      cases e with
      | link target => exact absurd hlink (by simp [Entry.isLink])
      | file content =>
          obtain ⟨content', hfile⟩ := h.file hentry
          exact .name hup hshort hfile rfl (ih hjump hfree)
      | directory => exact .name hup hshort (h.directory hentry) rfl (ih hjump hfree)

theorem walk (h : Keeps t u) {place : Place}
    (hfree : ∀ loc n, place = .free loc n → ∃ content, u.entryAt (n :: loc) = some (.file content))
    {links : Nat} {toDirectory : Bool} {loc : Location} {names : List Name}
    (hway : t.walk links toDirectory loc names = .ok place) :
    u.walk links toDirectory loc names = .ok (.entry place.location) := by
  induction links generalizing toDirectory loc names with
  | zero => exact h.follow (fun _ _ _ hjump => absurd hjump (by simp)) hfree hway
  | succ links ih => exact h.follow (fun _ _ _ hjump => ih hjump) hfree hway

theorem resolve_place (h : Keeps t u) {p : Path} {place : Place}
    (hfree : ∀ loc n, place = .free loc n → ∃ content, u.entryAt (n :: loc) = some (.file content))
    (hres : t.resolve p = .ok place) : u.resolve p = .ok (.entry place.location) := by
  have hnames : u.namesOf p = t.namesOf p := by rw [namesOf, namesOf, h.cwd]
  rw [resolve_eq_ok_iff] at hres ⊢
  rw [hnames]
  exact hres.imp_right (h.walk hfree)

/-- **What a path leads to, it still leads to.** -/
theorem resolve (h : Keeps t u) {p : Path} {loc : Location}
    (hres : t.resolve p = .ok (.entry loc)) : u.resolve p = .ok (.entry loc) :=
  h.resolve_place (fun _ _ heq => by cases heq) hres

/-- **What stands at a path** still stands there, and is of the same kind. -/
theorem status? (h : Keeps t u) {p : Path} {e : Entry} (hstatus : t.status? p = .ok (some e)) :
    ∃ e', u.status? p = .ok (some e') ∧ e.Alike e' := by
  obtain ⟨loc, hres, hentry⟩ := status?_eq_some_iff.1 hstatus
  obtain ⟨e', he', hlike⟩ := h.entry hentry
  exact ⟨e', status?_eq_some_iff.2 ⟨loc, h.resolve hres, he'⟩, hlike⟩

/-- A file is still one. -/
theorem isFile? (h : Keeps t u) {p : Path} (hfile : t.isFile? p = .ok true) :
    u.isFile? p = .ok true := by
  obtain ⟨content, hstatus⟩ := isFile?_eq_true_iff.1 hfile
  obtain ⟨e, he, hlike⟩ := h.status? hstatus
  obtain ⟨content', rfl⟩ := hlike.of_file
  exact isFile?_eq_true_iff.2 ⟨content', he⟩

end Keeps

namespace Retains

theorem refl (t : FileTree) : Retains t t := ⟨.refl t, List.prefix_rfl, rfl⟩

theorem trans (h : Retains t u) (h' : Retains u w) : Retains t w :=
  ⟨h.toKeeps.trans h'.toKeeps, h.keys.trans h'.keys, h'.root.trans h.root⟩

/-- **A tree that has nothing else is the same one.** -/
theorem eq_of_entryAt (h : Retains t u) (hsame : ∀ loc, u.entryAt loc = t.entryAt loc) : u = t := by
  have hget : ∀ loc, u.entries.get? loc = t.entries.get? loc := by
    intro loc
    cases loc with
    | nil => exact h.root
    | cons n loc => rw [← entryAt_cons, ← entryAt_cons, hsame]
  have hkeys : u.entries.keys = t.entries.keys := by
    obtain ⟨rest, hrest⟩ := h.keys
    have hnodup : (t.entries.keys ++ rest).Nodup := hrest ▸ u.entries.nodup
    have hnone : rest = [] := by
      refine List.eq_nil_iff_forall_not_mem.2 fun loc hloc => ?_
      have hu : loc ∈ u.entries.keys := hrest ▸ List.mem_append_right _ hloc
      rw [← OrderedMap.get?_isSome, hget, OrderedMap.get?_isSome] at hu
      exact (List.nodup_append.1 hnodup).2.2 loc hu loc hloc rfl
    rw [← hrest, hnone, List.append_nil]
  have hentries : u.entries = t.entries := OrderedMap.ext_of_keys hkeys hget
  cases t
  cases u
  obtain rfl : _ = _ := hentries
  obtain rfl : _ = _ := h.cwd
  rfl

end Retains

/-! ## The operations -/

theorem put_retains (t : FileTree) (n : Name) (loc : Location) (e : Entry)
    (hloc : t.entryAt loc = some .directory)
    (he : t.entryAt (n :: loc) = some .directory → e = .directory)
    (hlike : ∀ e', t.entryAt (n :: loc) = some e' → e'.Alike e) :
    Retains t (t.put n loc e hloc he) := by
  refine ⟨⟨rfl, fun {there} e' hentry => ?_⟩, ?_, by simp [put, OrderedMap.get?_insert]⟩
  · rw [entryAt_put]
    split
    · next heq =>
        subst heq
        exact ⟨e, rfl, hlike e' hentry⟩
    · exact ⟨e', hentry, .refl e'⟩
  · simp only [put, OrderedMap.keys_insert]
    split
    · exact List.prefix_rfl
    · exact List.prefix_append _ _

theorem add_retains {n : Name} {loc : Location} {e : Entry} (h : t.add n loc e = .ok u) :
    Retains t u := by
  unfold add at h
  split at h
  · split at h
    · next hnone =>
        obtain rfl := Except.ok.inj h
        exact put_retains t n loc e _ _ fun e' he' => absurd (hnone.symm.trans he') (by simp)
    · exact absurd h (by simp)
  · exact absurd h (by simp)

theorem make_retains {p : Path} {e : Entry} (h : t.make p e = .ok u) : Retains t u := by
  rw [make] at h
  split at h
  · exact absurd h (by simp)
  · split at h
    · exact absurd h (by simp)
    · split at h
      · exact absurd h (by simp)
      · exact absurd h (by simp)
      · split at h
        · exact absurd h (by simp)
        · split at h
          · exact absurd h (by simp)
          · split at h
            · exact absurd h (by simp)
            · exact add_retains h

theorem makeDirectories_retains (p : Path) (t : FileTree) :
    Retains t (t.makeDirectories p).1 :=
  makeDirectories_chain .refl .trans (fun _ h => make_retains h) t

theorem writeFile_retains {p : Path} {content : List UInt8} (h : t.writeFile p content = .ok u) :
    Retains t u := by
  unfold writeFile at h
  split at h
  · exact absurd h (by simp)
  · exact add_retains h
  · exact absurd h (by simp)
  · split at h
    · next n loc _ content' hentry =>
        obtain rfl := Except.ok.inj h
        refine put_retains t n loc _ _ _ fun e' he' => ?_
        obtain rfl := Option.some.inj (hentry.symm.trans he')
        trivial
    · exact absurd h (by simp)
    · exact absurd h (by simp)

/-- **What has been written can be read**, also where links lead. -/
theorem readFile_of_writeFile {p : Path} {content : List UInt8}
    (h : t.writeFile p content = .ok u) : u.readFile p = .ok content := by
  obtain ⟨place, hres, hput⟩ := writeFile_eq_ok h
  have hentry : u.entryAt place.location = some (.file content) := by rw [hput, if_pos rfl]
  have hres' := (writeFile_retains h).toKeeps.resolve_place (fun loc n heq => by
    subst heq
    exact ⟨content, hentry⟩) hres
  exact readFile_eq_ok_iff.2 (status?_eq_some_iff.2 ⟨_, hres', hentry⟩)

end FileTree

open FileTree

theorem Document.write_retains (t : FileTree) (p : Path) (encoding : Text) (lines : List Text) :
    Retains t (Document.write t p encoding lines).1 := by
  have hdirs := makeDirectories_retains p.parent t
  rcases write_tree t p encoding lines with hsame | ⟨content, hwrite⟩
  · rw [hsame]
    exact hdirs
  · exact hdirs.trans (writeFile_retains hwrite)

/-! ## Copies and runs -/

theorem Relink.copy_retains (how : Copying) (targets : Targets) (file target : Path)
    (t : FileTree) : Retains t (Relink.copy how targets file target t).tree := by
  rw [copy]
  split
  · exact .refl t
  · split
    · exact .refl t
    · exact Document.write_retains t target how.encoding _

theorem Relink.copy_keeps {how : Copying} {targets : Targets} {file target : Path} {t u : FileTree}
    {es : List Event} {r : Except BuildError Unit}
    (h : Relink.copy how targets file target t = ⟨u, es, r⟩) : Keeps t u := by
  have hcopy := (copy_retains how targets file target t).toKeeps
  rwa [h] at hcopy

theorem Relink.copyEach_retains (how : Copying) (targets : Targets) (skip : List Path)
    (docs : List (Path × Path)) (t : FileTree) :
    Retains t (Relink.copyEach how targets skip docs t).tree := by
  induction docs generalizing t with
  | nil => exact .refl t
  | cons e docs ih =>
      obtain ⟨file, target⟩ := e
      rw [copyEach]
      split
      · exact ih t
      · have hcopy := copy_retains how targets file target t
        split
        · next hc =>
            rw [hc] at hcopy
            exact hcopy
        · next t₁ es hc =>
            rw [hc] at hcopy
            exact hcopy.trans (ih t₁)

namespace Build

variable {b : Build} {t t' : FileTree} {written written' : List Path} {v : Visit} {vs : List Visit}

theorem copies_retains (b : Build) (v : Visit) : Retains v.tree (b.copies v).tree :=
  Relink.copyEach_retains b.copying (b.found v).targets v.written _ v.tree

theorem Runs.retains (h : b.Runs t written vs t' written') : Retains t t' := by
  induction h with
  | nil => exact .refl _
  | @cons v _ _ _ _ _ _ _ _ ih => exact (copies_retains b v).trans ih

/-- **What a run finds at a visit** stands between what it started from and what it leaves. -/
theorem Runs.between (h : b.Runs t written vs t' written') (hv : v ∈ vs) :
    Retains t v.tree ∧ Retains (b.copies v).tree t' := by
  obtain ⟨earlier, later, page, new, -, hearlier, -, -, hlater⟩ := h.split hv
  exact ⟨hearlier.retains, hlater.retains⟩

end Build

end Folio

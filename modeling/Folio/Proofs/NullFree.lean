import Folio.Proofs.Ending
import Folio.Proofs.Placement
import Folio.Proofs.Readback

/-!
# Paths without null characters

No name on a disk holds a null character, and a path with one is refused before the file tree is
looked at. The questions about a path take this refusal for an absence, but reading and writing fail
with it.

The place of a document is made of names of the working directory and of documents
(`inherits_nullFree`), and whatever is found has a path without null characters. **So no document of
a run has a path with one, and no copy** (`Build.found_nullFree`), if the source and the working
directory have none. All that can go wrong when they are read and written is reported then
(`Document.read_reported`, `Document.write_reported`).
-/

namespace Folio

open FileTree

/-! ## Names -/

namespace Path

/-- No name of the path holds a null character. -/
def NullFree (p : Path) : Prop := ∀ n ∈ p.names, '\x00' ∉ n.text

instance (p : Path) : Decidable p.NullFree :=
  inferInstanceAs (Decidable (∀ n ∈ p.names, '\x00' ∉ n.text))

theorem mem_join {c : Char} {sep : Text} (hsep : c ∉ sep) {parts : List Text} :
    c ∈ Text.join sep parts ↔ ∃ part ∈ parts, c ∈ part := by
  induction parts with
  | nil => simp [Text.join]
  | cons part parts ih =>
      cases parts with
      | nil => simp [Text.join]
      | cons q parts => simp [Text.join, hsep, ih]

/-- The characters of a path are those of its names, but for slashes and the dot that leads nowhere.
-/
theorem mem_toText {p : Path} {c : Char} (hslash : c ≠ '/') (hdot : c ≠ '.') :
    c ∈ p.toText ↔ ∃ n ∈ p.names, c ∈ n.text := by
  have hjoin : c ∈ Text.join ['/'] (p.names.map Name.text) ↔ ∃ n ∈ p.names, c ∈ n.text := by
    rw [mem_join (by simpa using hslash)]
    simp
  rw [toText]
  split
  · next h => simp [h.2, hdot]
  · have hanchor : c ∉ p.anchor.toText := by cases p.anchor <;> simp [Anchor.toText, hslash]
    rw [List.mem_append, hjoin, or_iff_right hanchor]

theorem nullFree_iff {p : Path} : p.NullFree ↔ '\x00' ∉ p.toText := by
  rw [mem_toText (by decide) (by decide)]
  simp [NullFree]

variable {p q : Path}

theorem NullFree.of_subset (h : p.NullFree) (hsub : q.names ⊆ p.names) : q.NullFree :=
  fun n hn => h n (hsub hn)

theorem NullFree.parent (h : p.NullFree) : p.parent.NullFree :=
  h.of_subset (List.dropLast_subset _)

theorem push_subset {absolute : Bool} {stack : List Name} {n : Name} :
    push absolute stack n ⊆ n :: stack := by
  unfold push
  split
  · cases stack with
    | nil => cases absolute <;> simp
    | cons top rest =>
        dsimp only
        split
        · exact List.Subset.refl _
        · exact fun m hm => List.mem_cons_of_mem _ (List.mem_cons_of_mem _ hm)
  · exact List.Subset.refl _

theorem foldl_push_subset {absolute : Bool} {stack names : List Name} :
    names.foldl (push absolute) stack ⊆ names ++ stack := by
  induction names generalizing stack with
  | nil => exact List.Subset.refl _
  | cons n names ih =>
      intro m hm
      rcases List.mem_append.1 (ih hm) with hlater | hpush
      · exact List.mem_append_left _ (List.mem_cons_of_mem _ hlater)
      · rcases List.mem_cons.1 (push_subset hpush) with rfl | hstack
        · exact List.mem_append_left _ List.mem_cons_self
        · exact List.mem_append_right _ hstack

theorem NullFree.normalize (h : p.NullFree) : p.normalize.NullFree := by
  refine h.of_subset fun n hn => ?_
  have hmem := foldl_push_subset (List.mem_reverse.1 hn)
  rwa [List.append_nil] at hmem

theorem NullFree.join (h : p.NullFree) (h' : q.NullFree) : (p.join q).NullFree := by
  rw [Path.join]
  split
  · exact h'
  · intro n hn
    exact (List.mem_append.1 hn).elim (h n) (h' n)

/-- What leads from one place to another has the names of the other. -/
theorem mem_offset {n : Name} {as bs : List Name} (h : n ∈ offset as bs) : n = .up ∨ n ∈ bs := by
  induction as generalizing bs with
  | nil => exact .inr h
  | cons a as ih =>
      cases bs with
      | nil =>
          rw [offset, List.append_nil] at h
          · obtain ⟨m, -, hm⟩ := List.mem_map.1 h
            exact .inl hm.symm
          · simp
      | cons b bs =>
          rw [offset] at h
          split at h
          · exact (ih h).imp_right (List.mem_cons_of_mem _)
          · rw [List.cons_append, List.mem_cons, List.mem_append] at h
            rcases h with hup | hup | hdown
            · exact .inl hup
            · obtain ⟨m, -, hm⟩ := List.mem_map.1 hup
              exact .inl hm.symm
            · exact .inr hdown

theorem NullFree.targetOf {file target other : Path} (base : Path) (htarget : target.NullFree)
    (hother : other.isAbsolute = true) (h : other.NullFree) :
    (Document.targetOf base file target other).NullFree := by
  refine (htarget.parent.join fun n hn => ?_).normalize
  rcases mem_offset hn with rfl | hn
  · decide
  · rw [absolute_of_isAbsolute base hother] at hn
    exact h.normalize n hn

end Path

/-! ## Paths that are refused -/

theorem refusal?_ne_nullCharacter {p : Path} (h : p.NullFree) :
    refusal? p ≠ some .nullCharacter := by
  rw [refusal?]
  split
  · simp
  · rw [if_neg (Path.nullFree_iff.1 h)]
    split <;> simp

theorem nullFree_of_isPage? {t : FileTree} {p : Path} (h : Document.isPage? t p = .ok true) :
    p.NullFree :=
  Path.nullFree_iff.2 (refusal?_eq_none (refusal?_of_isPage? h)).1

namespace FileTree

variable {t : FileTree} {p : Path}

theorem walk_ne_nullCharacter {links : Nat} {toDirectory : Bool} {loc : Location}
    {names : List Name} : t.walk links toDirectory loc names ≠ .error .nullCharacter :=
  fun h => absurd (walk_error h) (by decide)

theorem resolve_ne_nullCharacter (hp : p.NullFree) : t.resolve p ≠ .error .nullCharacter := by
  intro h
  rw [resolve] at h
  split at h
  · next f hf => exact refusal?_ne_nullCharacter hp (Except.error.inj h ▸ hf)
  · exact walk_ne_nullCharacter h

theorem readFile_ne_nullCharacter (hp : p.NullFree) : t.readFile p ≠ .error .nullCharacter := by
  intro h
  rw [readFile] at h
  split at h
  · next f hres => exact resolve_ne_nullCharacter hp (Except.error.inj h ▸ hres)
  · exact absurd h (by simp)
  · split at h <;> exact absurd h (by simp)

theorem add_ne_nullCharacter {n : Name} {loc : Location} {e : Entry} :
    t.add n loc e ≠ .error .nullCharacter := by
  intro h
  rw [add] at h
  split at h
  · split at h <;> exact absurd h (by simp)
  · exact absurd h (by simp)

theorem make_ne_nullCharacter (hp : p.NullFree) {e : Entry} :
    t.make p e ≠ .error .nullCharacter := by
  intro h
  rw [make] at h
  split at h
  · next f hf => exact refusal?_ne_nullCharacter hp (Except.error.inj h ▸ hf)
  · split at h
    · exact absurd h (by simp)
    · split at h
      · next f hwalk => exact walk_ne_nullCharacter (Except.error.inj h ▸ hwalk)
      · exact absurd h (by simp)
      · split at h
        · exact absurd h (by simp)
        · split at h
          · exact absurd h (by simp)
          · split at h
            · exact absurd h (by simp)
            · exact add_ne_nullCharacter h

/-- A failed attempt leaves its own fault, or the one of a question. -/
theorem settle_ne_nullCharacter {f : Fault} (hf : f ≠ .nullCharacter) :
    t.settle p f ≠ .error .nullCharacter := by
  intro h
  rw [settle] at h
  split at h
  · exact absurd h (by simp)
  · exact hf (Except.error.inj h)
  · next g hdir =>
      obtain rfl := Except.error.inj h
      rw [isDirectory?] at hdir
      cases hstatus : t.status? p with
      | error g =>
          rw [hstatus] at hdir
          obtain rfl := Except.error.inj hdir
          exact absurd (status?_error hstatus) (by simp)
      | ok e =>
          rw [hstatus] at hdir
          exact absurd hdir (by simp [Except.map])

theorem settle_makeDirectory_ne_nullCharacter (hp : p.NullFree) {f : Fault}
    (h : t.makeDirectory p = .error f) : t.settle p f ≠ .error .nullCharacter := by
  refine settle_ne_nullCharacter ?_
  rintro rfl
  exact make_ne_nullCharacter hp h

theorem makeDirectoriesUp_ne_nullCharacter {anchor : Anchor} {up : List Name} {t : FileTree}
    (hup : (⟨anchor, up.reverse⟩ : Path).NullFree) :
    (makeDirectoriesUp anchor up t).2 ≠ .error .nullCharacter := by
  induction up with
  | nil =>
      rw [makeDirectoriesUp]
      split
      · simp
      · simp
      · next hmake => exact settle_makeDirectory_ne_nullCharacter hup hmake
  | cons n up ih =>
      have hup' : (⟨anchor, up.reverse⟩ : Path).NullFree :=
        hup.of_subset fun m hm => by simpa using .inl (List.mem_reverse.1 hm)
      rw [makeDirectoriesUp]
      split
      · simp
      · split
        · next hmade =>
            have hbefore := ih hup'
            rw [hmade] at hbefore
            exact hbefore
        · split
          · simp
          · simp
          · next hmake => exact settle_makeDirectory_ne_nullCharacter hup hmake
      · next hmake => exact settle_makeDirectory_ne_nullCharacter hup hmake

theorem makeDirectories_ne_nullCharacter (hp : p.NullFree) :
    (t.makeDirectories p).2 ≠ .error .nullCharacter := by
  refine makeDirectoriesUp_ne_nullCharacter ?_
  rw [List.reverse_reverse]
  exact hp

theorem writeFile_ne_nullCharacter (hp : p.NullFree) {content : List UInt8} :
    t.writeFile p content ≠ .error .nullCharacter := by
  intro h
  unfold writeFile at h
  split at h
  · next f hres => exact resolve_ne_nullCharacter hp (Except.error.inj h ▸ hres)
  · exact add_ne_nullCharacter h
  · exact absurd h (by simp)
  · split at h <;> exact absurd h (by simp)

end FileTree

/-! ## Reading and writing -/

/-- The error is one that is reported, with a message. -/
def BuildError.Reported (e : BuildError) : Prop := e.message?.isSome = true

namespace Document

variable {t : FileTree} {p : Path} {encoding : Text} {lines : List Text} {e : BuildError}

theorem read_reported (hp : p.NullFree) (hencoding : '\x00' ∉ encoding)
    (h : read t p encoding = .error e) : e.Reported := by
  rcases read_error h with ⟨-, hnull | hread⟩ | ⟨c, rfl⟩
  · exact absurd hnull hencoding
  · exact absurd hread (readFile_ne_nullCharacter hp)
  · rfl

theorem writeError_reported {f : Fault} (hf : f ≠ .nullCharacter) : (writeError p f).Reported := by
  cases f with
  | nullCharacter => exact absurd rfl hf
  | _ => rfl

theorem fill_reported (hp : p.NullFree) (h : (fill t p encoding lines).2 = .error e) :
    e.Reported := by
  unfold fill at h
  simp only at h
  split at h
  · next f hwrite =>
      obtain rfl := Except.error.inj h
      apply writeError_reported
      rintro rfl
      exact writeFile_ne_nullCharacter hp hwrite
  · split at h
    · exact absurd h (by simp)
    · obtain rfl := Except.error.inj h
      rfl

theorem write_reported (hp : p.NullFree) (hencoding : '\x00' ∉ encoding)
    (h : (write t p encoding lines).2 = .error e) : e.Reported := by
  have hdirs := makeDirectories_ne_nullCharacter (t := t) hp.parent
  rw [write] at h
  split at h
  · next f hmade =>
      obtain rfl := Except.error.inj h
      apply writeError_reported
      rintro rfl
      exact hdirs (by rw [hmade])
  · rw [if_neg hencoding] at h
    exact fill_reported hp h

end Document

/-! ## The documents of a run -/

theorem inherits_nullFree : Inherits Path.NullFree fun file target =>
    file.isAbsolute = true ∧ file.NullFree ∧ target.NullFree := by
  rintro base file target path ⟨hfile, -, htarget⟩ hfree
  have hother := (Path.refer_normal hfile path).absolute
  exact ⟨hother, hfree, htarget.targetOf base hother hfree⟩

namespace Build

variable {b : Build} {t : FileTree} {source workingDir : Path} {attributes : Attributes}
  {encoding : Text}

theorem open?_nullFree (h : open? t source workingDir attributes encoding = .ok b)
    (hcwd : t.cwdPath.NullFree) (hsource : source.NullFree) (hworking : workingDir.NullFree) :
    b.source.NullFree ∧ b.workingDir.NullFree := by
  obtain rfl := open?_eq_ok h
  exact ⟨(hcwd.join hsource).normalize, (hcwd.join hworking).normalize⟩

theorem nullFree_of_checkEncoding {name : Text} {u : Unit} (h : checkEncoding name = .ok u) :
    '\x00' ∉ name := by
  intro hnull
  rw [checkEncoding] at h
  split at h
  · next hfind =>
      rw [Encoding.find, if_pos hnull] at hfind
      split at hfind <;> exact absurd hfind (by simp)
  all_goals exact absurd h (by simp)

theorem Live.encoding_nullFree (h : b.Live) : '\x00' ∉ b.encoding := by
  induction h with
  | opened hopen =>
      obtain ⟨_, -, hopen'⟩ := exists_of_bind_eq_ok hopen
      obtain ⟨_, -, hopen''⟩ := exists_of_bind_eq_ok hopen'
      obtain ⟨_, hname, -⟩ := exists_of_bind_eq_ok hopen''
      rw [open?_eq_ok hopen]
      exact nullFree_of_checkEncoding hname
  | ran _ _ ih => exact ih

theorem nullFree_of_topLevel (hb : b.Live) (hsource : b.source.NullFree) {es : List Event}
    {docs : List (Path × Path)} (h : b.topLevel t = (es, .ok docs)) : ∀ e ∈ docs, e.1.NullFree := by
  rcases topLevel_eq_ok_iff.1 h with ⟨-, -, rfl⟩ | ⟨-, -, ns, -, hdocs⟩
  · exact List.forall_mem_singleton.2 hsource
  · intro e he
    obtain ⟨n, -, hpage, rfl⟩ := exists_of_mem_pagesAmong hb.normal.2 hdocs he
    exact nullFree_of_isPage? hpage

/-- **No document of a run has a path with a null character, and no copy.** -/
theorem found_nullFree (hb : b.Live) (hsource : b.source.NullFree)
    (hworking : b.workingDir.NullFree) {v : Visit} (hv : v ∈ b.visits t) :
    (b.found v).targets.All fun file target => file.NullFree ∧ target.NullFree := by
  obtain ⟨es, docs, htop, hmem⟩ := exists_topLevel_of_mem_visits hv
  have hfile : v.file.NullFree := nullFree_of_topLevel hb hsource htop _ hmem
  obtain ⟨hnormal, names, -, hnames, htarget⟩ := mirrors_visit hb hv
  have hplace : v.target.NullFree := by
    intro n hn
    rw [htarget, List.mem_append] at hn
    rcases hn with hbase | hrest
    · exact hworking n hbase
    · exact hfile n (hnames ▸ List.mem_append_right _ hrest)
  have hkeys : ∀ file ∈ (b.found v).targets.keys, file.NullFree := by
    intro file hkey
    by_cases hroot : file = v.file
    · exact hroot ▸ hfile
    · refine nullFree_of_isPage? ((Search.collect_grows (OrderedMap.get?_empty v.file)).isPage? hkey ?_)
      rw [Search.keys_enter, List.mem_singleton]
      exact hroot
  intro file target hmaps
  exact (found_all inherits_nullFree ⟨hnormal.absolute, hfile, hplace⟩ hkeys file target hmaps).2

end Build

end Folio

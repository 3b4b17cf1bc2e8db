import Folio.Proofs.Quiet

/-!
# The documents of a directory, listed again

The names in a directory are sorted, so a listing does not tell which entries are new: with the
names that do not matter left out, it is the listing that there was (`FileTree.filter_namesIn`).

**Theorem (`Build.topLevel_again`).** A quiet run finds the same documents at the source when it is
started again from what it has left, if it has made nothing with the name of a document in the
directory of the source. Without this condition the next run would find one document more.
-/

namespace Folio

open FileTree List

/-! ## Alphabetical order -/

namespace Text

theorem le_total (s t : Text) : (le s t || le t s) = true := by
  induction s generalizing t with
  | nil => cases t <;> rfl
  | cons a s ih =>
      cases t with
      | nil => rfl
      | cons b t =>
          by_cases hab : a = b
          · subst hab
            simpa [le] using ih t
          · have hval : a.val ≠ b.val := fun h => hab (Char.ext h)
            simp only [le, hab, Ne.symm hab, if_false, Bool.or_eq_true, decide_eq_true_eq]
            have hcode : a.val.toNat ≠ b.val.toNat := fun h => hval (UInt32.toNat_inj.1 h)
            rw [UInt32.lt_iff_toNat_lt, UInt32.lt_iff_toNat_lt]
            omega

theorem le_antisymm {s t : Text} (h : le s t = true) (h' : le t s = true) : s = t := by
  induction s generalizing t with
  | nil =>
      cases t with
      | nil => rfl
      | cons b t => simp [le] at h'
  | cons a s ih =>
      cases t with
      | nil => simp [le] at h
      | cons b t =>
          by_cases hab : a = b
          · subst hab
            simp only [le, if_true] at h h'
            rw [ih h h']
          · simp only [le, hab, Ne.symm hab, if_false, decide_eq_true_eq] at h h'
            exact absurd h' (UInt32.lt_asymm h)

theorem le_trans {s t r : Text} (h : le s t = true) (h' : le t r = true) : le s r = true := by
  induction s generalizing t r with
  | nil => rfl
  | cons a s ih =>
      cases t with
      | nil => simp [le] at h
      | cons b t =>
          cases r with
          | nil => simp [le] at h'
          | cons c r =>
              by_cases hab : a = b
              · subst hab
                by_cases hac : a = c
                · subst hac
                  simp only [le, if_true] at h h' ⊢
                  exact ih h h'
                · simpa [le, hac] using h'
              · by_cases hbc : b = c
                · subst hbc
                  simpa [le, hab] using h
                · simp only [le, hab, hbc, if_false, decide_eq_true_eq] at h h'
                  have hac : a.val < c.val := UInt32.lt_trans h h'
                  have hne : a ≠ c := fun heq => UInt32.lt_irrefl _ (heq ▸ hac)
                  simpa [le, hne] using hac

end Text

namespace FileTree

variable {t u : FileTree} {top : Location}

/-- The name of the entry at a location in the directory. -/
def nameIn? (top : Location) : Location → Option Name
  | [] => none
  | n :: rest => if rest = top then some n else none

theorem nameIn?_eq_some_iff {loc : Location} {n : Name} :
    nameIn? top loc = some n ↔ loc = n :: top := by
  cases loc with
  | nil => simp [nameIn?]
  | cons m rest =>
      rw [nameIn?, List.cons.injEq]
      by_cases h : rest = top <;> simp [h]

theorem namesIn_perm (t : FileTree) (top : Location) :
    t.namesIn top ~ t.entries.keys.filterMap (nameIn? top) :=
  List.mergeSort_perm _ _

theorem nodup_namesIn (t : FileTree) (top : Location) : (t.namesIn top).Nodup := by
  rw [(namesIn_perm t top).nodup_iff]
  refine List.Nodup.filterMap (fun loc loc' n h h' => ?_) t.entries.nodup
  rw [Option.mem_def, nameIn?_eq_some_iff] at h h'
  rw [h, h']

theorem mem_namesIn {n : Name} : n ∈ t.namesIn top ↔ t.entryAt (n :: top) ≠ none := by
  rw [(namesIn_perm t top).mem_iff, List.mem_filterMap, entryAt_cons, Option.ne_none_iff_isSome,
    OrderedMap.get?_isSome]
  simp only [nameIn?_eq_some_iff, exists_eq_right]

theorem pairwise_namesIn (t : FileTree) (top : Location) :
    (t.namesIn top).Pairwise fun m n => Text.le m.text n.text = true := by
  have htrans : ∀ m n k : Name, Text.le m.text n.text = true → Text.le n.text k.text = true →
      Text.le m.text k.text = true := fun _ _ _ => Text.le_trans
  have htotal : ∀ m n : Name, (Text.le m.text n.text || Text.le n.text m.text) = true :=
    fun _ _ => Text.le_total _ _
  exact List.pairwise_mergeSort htrans htotal _

/-- Entries that are in order are listed as they are. -/
theorem namesIn_eq_of_pairwise
    (h : (t.entries.keys.filterMap (nameIn? top)).Pairwise fun m n => Text.le m.text n.text = true) :
    t.namesIn top = t.entries.keys.filterMap (nameIn? top) :=
  List.mergeSort_of_pairwise h

/-- Two listings are the same but for some names, if the same of the other names are in them. -/
theorem filter_namesIn_congr {top' : Location} {keep : Name → Bool}
    (h : ∀ n, keep n = true → (u.entryAt (n :: top') ≠ none ↔ t.entryAt (n :: top) ≠ none)) :
    (u.namesIn top').filter keep = (t.namesIn top).filter keep := by
  have hperm : (u.namesIn top').filter keep ~ (t.namesIn top).filter keep := by
    refine (List.perm_ext_iff_of_nodup ((nodup_namesIn u top').filter _)
      ((nodup_namesIn t top).filter _)).2 fun n => ?_
    rw [List.mem_filter, List.mem_filter, mem_namesIn, mem_namesIn]
    exact and_congr_left (h n)
  refine hperm.eq_of_pairwise (fun m n _ _ hle hle' => ?_) ((pairwise_namesIn u top').filter _)
    ((pairwise_namesIn t top).filter _)
  have htext : m.text = n.text := Text.le_antisymm hle hle'
  cases m
  cases n
  obtain rfl : _ = _ := htext
  rfl

/-- Directories that hold the same names are listed alike. -/
theorem namesIn_congr {top' : Location}
    (h : ∀ n, u.entryAt (n :: top') = none ↔ t.entryAt (n :: top) = none) :
    u.namesIn top' = t.namesIn top := by
  have hfilter : (u.namesIn top').filter (fun _ => true) = (t.namesIn top).filter fun _ => true :=
    filter_namesIn_congr fun n _ => not_congr (h n)
  simpa using hfilter

/-- **A listing without the new names** is the listing that there was. -/
theorem filter_namesIn (h : Keeps t u) {keep : Name → Bool}
    (hnew : ∀ n, t.entryAt (n :: top) = none → u.entryAt (n :: top) ≠ none → keep n = false) :
    (u.namesIn top).filter keep = (t.namesIn top).filter keep := by
  refine filter_namesIn_congr fun n hkeep => ⟨fun hu hnone => ?_, fun ht hnone => ht (h.none hnone)⟩
  rw [hnew n hnone hu] at hkeep
  exact absurd hkeep Bool.false_ne_true

end FileTree

theorem FileTree.list_of_isDirectory? {t : FileTree} (ht : t.LinkFree) {p : Path} (hp : p.Normal)
    (h : t.isDirectory? p = .ok true) : t.list p = .ok (t.namesIn p.location) := by
  obtain ⟨loc, hres, hdir⟩ := status?_eq_some_iff.1 (isDirectory?_eq_true_iff.1 h)
  obtain rfl : loc = p.location := resolve_eq_ok ht hp hres
  rw [list, hres]
  simp only [hdir, if_true]

/-! ## The documents at the source -/

namespace Build

variable {b : Build} {t u : FileTree} {source workingDir : Path}

/-- Only the names of documents count. -/
theorem pagesAmong_filter (t : FileTree) (source workingDir : Path) (names : List Name) :
    pagesAmong t source workingDir names =
      pagesAmong t source workingDir
        (names.filter fun n => Document.isPageName (source.child n)) := by
  induction names with
  | nil => rfl
  | cons n names ih =>
      by_cases hname : Document.isPageName (source.child n) = true
      · rw [List.filter_cons, if_pos hname, pagesAmong, pagesAmong, ih]
      · have hpage : Document.isPage? t (source.child n) = .ok false := by
          rw [Document.isPage?, if_neg hname]
        rw [List.filter_cons, if_neg hname, pagesAmong, hpage]
        exact ih

theorem pagesAmong_congr {names : List Name}
    (h : ∀ n ∈ names, Document.isPage? u (source.child n) = Document.isPage? t (source.child n)) :
    pagesAmong u source workingDir names = pagesAmong t source workingDir names := by
  induction names with
  | nil => rfl
  | cons n names ih =>
      rw [List.forall_mem_cons] at h
      rw [pagesAmong, pagesAmong, h.1, ih h.2]

theorem answers_of_pagesAmong (hworking : workingDir.Normal) {names : List Name}
    {docs : List (Path × Path)} (h : pagesAmong t source workingDir names = .ok docs) :
    ∀ n ∈ names, Document.isPageName (source.child n) = true → t.Answers (source.child n) := by
  intro n hn hname
  obtain ⟨a, ha⟩ := Search.exists_ok_of_isOk (((pagesAmong_eq_ok_iff hworking).1 h).1 n hn)
  rw [Document.isPage?, if_pos hname, isFile?] at ha
  obtain ⟨e, he, -⟩ := exists_of_map_eq_ok ha
  rw [Answers, he]
  rfl

/-- Nothing with the name of a document is made in the directory of the source. -/
def AddsNoPage (b : Build) (t : FileTree) : Prop :=
  ∀ n, n :: b.source.location ∈ b.made t → Document.isPageName (b.source.child n) = false

instance (b : Build) (t : FileTree) : Decidable (b.AddsNoPage t) :=
  decidable_of_iff (∀ loc ∈ b.made t, ∀ n ∈ loc.head?, loc.tail = b.source.location →
      Document.isPageName (b.source.child n) = false) <| by
    constructor
    · exact fun h n hmade => h _ hmade n rfl rfl
    · intro h loc hmade n hn htail
      obtain ⟨rest, rfl⟩ : ∃ rest, loc = n :: rest := List.head?_eq_some_iff.1 hn
      obtain rfl : rest = b.source.location := htail
      exact h n hmade

theorem exists_topLevel (hnew : b.pages = none) (hrun : (b.run t).result.isOk) :
    ∃ es docs, b.topLevel t = (es, .ok docs) := by
  rw [run, hnew] at hrun
  simp only [make] at hrun
  split at hrun
  · exact absurd hrun (by simp [Except.isOk, Except.toBool])
  · next es docs htop => exact ⟨es, docs, htop⟩

theorem child_location (source : Path) (n : Name) :
    (source.child n).location = n :: source.location := by
  simp [Path.child, Path.location]

theorem child_normal {n : Name} (hsource : source.Normal)
    (hname : Document.isPageName (source.child n) = true) : (source.child n).Normal := by
  refine hsource.of_append fun hmem => ?_
  obtain rfl := List.mem_singleton.1 hmem
  rw [Document.isPageName, Path.baseName, Path.child, List.getLast?_concat] at hname
  exact absurd hname (by decide)

/-- The documents at the source, if the names of the entries are in order already. -/
theorem topLevel_of_pairwise {docs : List (Path × Path)} (hb : b.Live) (ht : t.LinkFree)
    (hdir : t.isDirectory? b.source = .ok true)
    (hsorted : (t.entries.keys.filterMap (nameIn? b.source.location)).Pairwise fun m n =>
      Text.le m.text n.text = true)
    (hdocs : pagesAmong t b.source b.workingDir
      (t.entries.keys.filterMap (nameIn? b.source.location)) = .ok docs) :
    b.topLevel t = ([.listed b.source], .ok docs) := by
  have hlist := list_of_isDirectory? ht hb.normal.1 hdir
  rw [namesIn_eq_of_pairwise hsorted] at hlist
  exact topLevel_eq_ok_iff.2 (.inr ⟨hdir, rfl, _, hlist, hdocs⟩)

/-- **The documents at the source** are the same ones when a quiet run has ended. -/
theorem topLevel_again (hb : b.Live) (ht : t.LinkFree) (hrun : (b.run t).result.isOk)
    (hnew : b.pages = none) (hsource : Steady (b.made t) t (b.run t).tree b.source)
    (hadds : b.AddsNoPage t) : b.topLevel (b.run t).tree = b.topLevel t := by
  have hstage := end_stage hb ht hrun
  have hfree := run_linkFree hb ht hrun
  have hdir : (b.run t).tree.isDirectory? b.source = t.isDirectory? b.source := by
    rw [isDirectory?, isDirectory?, hsource _ hstage]
  obtain ⟨es, docs, htop⟩ := exists_topLevel hnew hrun
  rw [htop, topLevel_eq_ok_iff, hdir]
  rcases topLevel_eq_ok_iff.1 htop with hfile | ⟨hkind, rfl, ns, hlist, hdocs⟩
  · exact .inl hfile
  · rw [list_of_isDirectory? ht hb.normal.1 hkind] at hlist
    obtain rfl := Except.ok.inj hlist
    refine .inr ⟨hkind, rfl, _, list_of_isDirectory? hfree hb.normal.1 (hdir.trans hkind), ?_⟩
    have hanswers := answers_of_pagesAmong hb.normal.2 hdocs
    rw [pagesAmong_filter] at hdocs ⊢
    rw [filter_namesIn hstage.before fun n hold hmade => hadds n (mem_made_of_new hold hmade),
      pagesAmong_congr fun n hn => ?_, hdocs]
    obtain ⟨hn, hname⟩ := List.mem_filter.1 hn
    have hold : n :: b.source.location ∉ b.made t := fun hmade => by
      rw [hadds n hmade] at hname
      exact absurd hname Bool.false_ne_true
    rw [Document.isPage?, Document.isPage?, isFile?, isFile?,
      status?_congr_of_isSome ht hfree (child_normal hb.normal.1 hname) (hanswers n hn hname)]
    · rw [child_location, ← Option.ne_none_iff_isSome]
      exact mem_namesIn.1 hn
    · rw [child_location]
      exact hstage.same _ hold

end Build

end Folio

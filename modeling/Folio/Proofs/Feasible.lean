import Mathlib.Data.List.Infix
import Folio.Proofs.Listing
import Folio.Proofs.Unhindered

/-!
# Runs that cannot fail

A run can fail at a document that cannot be read, at a path that cannot be looked up, and at a copy
that cannot be made. Here is when none of this happens.

**Theorem (`Build.run_feasible`).** Say that nothing stands against a run (`Build.Feasible`): there
is no working directory yet, it is not to lie below the source, the documents that are found lie
below the source and have lines, and all names are short. If moreover the system accepts the paths
as a whole (`Build.Accepted`), then the run returns. This last condition cannot be left out
(`short_names_fail`).

*Proof.* The places mirror the documents. These are files of the tree at the start, so none lies
above another one, and the same holds of the places (`Feasible.place_eq`); nothing is at any of
them, since they lie below the working directory (`Feasible.unhindered`). So each visit finds a tree
that differs from the first one at places only (`Written`), where nothing has changed below the
source (`Feasible.entryAt_below`). There all documents can be read, all paths looked up, and the
copies made, which leaves such a tree for the next visit (`Feasible.copies_made`).
-/

namespace Folio

open FileTree

/-! ## What a run tests -/

namespace Relink

/-- The paths that the references in a line denote, which are tested when they are looked for, one
kind after another. -/
def lineTests (c : Copy) : List Reference → Text → List Path
  | [], _ => []
  | kind :: kinds, s =>
      (kind.grammar.hits s).map c.denotes ++
        match (pieces c kind (kind.grammar.pieces s)).2 with
        | .error _ => []
        | .ok s => lineTests c kinds s

/-- The paths that are tested when a document is copied. -/
def copyTests (how : Copying) (c : Copy) : List Path :=
  match Document.read c.tree c.file how.encoding with
  | .error _ => []
  | .ok ls => ls.flatMap fun l => lineTests c how.kinds (how.attributes.substitute l)

variable {c : Copy} {f : Fault}

/-- A line cannot be changed if a path that is tested cannot be looked up. -/
theorem exists_lineTests_of_error {kinds : List Reference} {s : Text}
    (h : (line c kinds s).2 = .error f) : ∃ p ∈ lineTests c kinds s, ¬ c.tree.Answers p := by
  induction kinds generalizing s with
  | nil => exact absurd h (by simp [line])
  | cons kind kinds ih =>
      rw [line] at h
      rw [lineTests]
      split at h
      · next es g hpieces =>
          obtain ⟨m, hm, -, hlong⟩ := pieces_error (congrArg Prod.snd hpieces)
          have hhit : m ∈ kind.grammar.hits s := List.mem_filterMap.2 ⟨.hit m, hm, rfl⟩
          exact ⟨c.denotes m, List.mem_append_left _ (List.mem_map_of_mem hhit), hlong⟩
      · next es s' hpieces =>
          obtain ⟨p, hp, hlong⟩ := ih h
          refine ⟨p, List.mem_append_right _ ?_, hlong⟩
          rw [hpieces]
          exact hp

theorem mem_copyTests {how : Copying} {ls : List Text} {l : Text} {p : Path}
    (hread : Document.read c.tree c.file how.encoding = .ok ls) (hl : l ∈ ls)
    (hp : p ∈ lineTests c how.kinds (how.attributes.substitute l)) : p ∈ copyTests how c := by
  rw [copyTests, hread]
  exact List.mem_flatMap.2 ⟨l, hl, hp⟩

theorem exists_denotes_of_mem_copyTests {how : Copying} {p : Path} (h : p ∈ copyTests how c) :
    ∃ m, c.denotes m = p := by
  have hline : ∀ kinds s, p ∈ lineTests c kinds s → ∃ m, c.denotes m = p := by
    intro kinds
    induction kinds with
    | nil => simp [lineTests]
    | cons kind kinds ih =>
        intro s hp
        rw [lineTests] at hp
        rcases List.mem_append.1 hp with hhit | hlater
        · obtain ⟨m, -, hm⟩ := List.mem_map.1 hhit
          exact ⟨m, hm⟩
        · split at hlater
          · cases hlater
          · exact ih _ hlater
  rw [copyTests] at h
  split at h
  · cases h
  · obtain ⟨l, -, hp⟩ := List.mem_flatMap.1 h
    exact hline _ _ hp

end Relink

namespace Build

/-- The places that the visits of a run give to documents. -/
def places (b : Build) (t : FileTree) : List Path :=
  (b.visits t).flatMap fun v => (b.found v).targets.entries.map Prod.snd

/-- The documents that are tested when the source is a directory: the entries with such a name. -/
def entryTests (b : Build) (t : FileTree) : List Path :=
  (((t.list b.source).toOption.getD []).map b.source.child).filter Document.isPageName

/-- **The paths that a run tests**: the source and what may be documents in it, what the documents
of each visit include, and what their references denote when copies are made. -/
def tests (b : Build) (t : FileTree) : List Path :=
  b.source :: b.entryTests t ++ (b.visits t).flatMap fun v =>
    ((b.directivesAt v).filter Directive.asks).map Directive.actual ++
      ((b.found v).targets.entries.filter fun e => e.2 ∉ v.written).flatMap fun e =>
        Relink.copyTests b.copying (b.copyAt v e.1 e.2)

/-- **Nothing stands against a run**: the source is fit, nothing is at the working directory, which
does not lie below the source, all documents lie below the source and have lines, the lines of
copies have bytes, and no name is too long. -/
structure Feasible (b : Build) (t : FileTree) : Prop where
  source : checkSource t b.source = .ok ()
  free : t.entryAt b.workingDir.location = none
  above : ∀ loc ∈ b.workingDir.location.tails, ∀ e ∈ t.entryAt loc, e = .directory
  apart : ¬ (b.home t).location <:+ b.workingDir.location
  below : ∀ v ∈ b.visits t, ∀ file ∈ (b.found v).targets.keys, (b.home t).Below file
  decodes : ∀ v ∈ b.visits t, ∀ file ∈ (b.found v).targets.keys,
    ∀ content ∈ (t.readFile file).toOption, (Document.lines? b.encoding content).isSome
  encodes : ∀ v ∈ b.visits t, ∀ e ∈ (b.found v).targets.entries, e.2 ∉ v.written →
    ∀ out ∈ Relink.copyLines? b.copying (b.copyAt v e.1 e.2),
      ∀ l ∈ out, Document.isWritable b.encoding l
  short : ∀ p ∈ b.tests t ++ b.places t, ∀ n ∈ p.names, n.text.byteLength ≤ nameLimit

instance (b : Build) (t : FileTree) : Decidable (b.Feasible t) :=
  decidable_of_iff
    (checkSource t b.source = .ok () ∧
      t.entryAt b.workingDir.location = none ∧
      (∀ loc ∈ b.workingDir.location.tails, ∀ e ∈ t.entryAt loc, e = .directory) ∧
      (¬ (b.home t).location <:+ b.workingDir.location) ∧
      (∀ v ∈ b.visits t, ∀ file ∈ (b.found v).targets.keys, (b.home t).Below file) ∧
      (∀ v ∈ b.visits t, ∀ file ∈ (b.found v).targets.keys,
        ∀ content ∈ (t.readFile file).toOption, (Document.lines? b.encoding content).isSome) ∧
      (∀ v ∈ b.visits t, ∀ e ∈ (b.found v).targets.entries, e.2 ∉ v.written →
        ∀ out ∈ Relink.copyLines? b.copying (b.copyAt v e.1 e.2),
          ∀ l ∈ out, Document.isWritable b.encoding l) ∧
      ∀ p ∈ b.tests t ++ b.places t, ∀ n ∈ p.names, n.text.byteLength ≤ nameLimit)
    ⟨fun ⟨h₁, h₂, h₃, h₄, h₅, h₆, h₇, h₈⟩ => ⟨h₁, h₂, h₃, h₄, h₅, h₆, h₇, h₈⟩,
      fun ⟨h₁, h₂, h₃, h₄, h₅, h₆, h₇, h₈⟩ => ⟨h₁, h₂, h₃, h₄, h₅, h₆, h₇, h₈⟩⟩

/-- The system accepts the paths of a run as a whole: those that it tests are not too long, and
those that it writes have no characters that it refuses either. -/
structure Accepted (b : Build) (t : FileTree) : Prop where
  tests : ∀ p ∈ b.tests t, refusal? p ≠ some .tooLong
  writes : ∀ p ∈ b.places t, refusal? p = none

instance (b : Build) (t : FileTree) : Decidable (b.Accepted t) :=
  decidable_of_iff ((∀ p ∈ b.tests t, refusal? p ≠ some .tooLong) ∧
      ∀ p ∈ b.places t, refusal? p = none)
    ⟨fun ⟨h₁, h₂⟩ => ⟨h₁, h₂⟩, fun ⟨h₁, h₂⟩ => ⟨h₁, h₂⟩⟩

variable {b : Build} {t u : FileTree} {v : Visit} {file target p q : Path} {loc : Location}

theorem mem_places : p ∈ b.places t ↔ ∃ v ∈ b.visits t, ∃ file, b.Maps v file p := by
  simp [places, maps_iff_mem]

/-! ## The documents -/

/-- The documents at the source are found, if the entries with names of documents can be looked up.
-/
theorem exists_pagesAmong {source workingDir : Path} (hworking : workingDir.Normal) {names : List Name}
    (h : ∀ n ∈ names, Document.isPageName (source.child n) = true → t.Answers (source.child n)) :
    ∃ docs, pagesAmong t source workingDir names = .ok docs := by
  refine ⟨_, (pagesAmong_eq_ok_iff hworking).2 ⟨fun n hn => ?_, rfl⟩⟩
  cases hpage : Document.isPage? t (source.child n) with
  | ok isPage => rfl
  | error f =>
      exfalso
      obtain ⟨-, hlong⟩ := Document.isPage?_error hpage
      rw [Document.isPage?] at hpage
      split at hpage
      · next hname => exact hlong (h n hn hname)
      · cases hpage

/-- The visits of a run change nothing but the places and what is above them. -/
theorem visits_changes (hb : b.Live) (ht : t.LinkFree) (hv : v ∈ b.visits t) :
    Changes (· ∈ b.places t) t v.tree := by
  refine visits_keeps (fun v hv hchanges new hcopies => ?_) (.refl _ t) v hv
  refine hchanges.trans
    ((copies_changes hb hv (ht.of_changes hchanges) hcopies).mono fun p hp => ?_)
  obtain ⟨⟨file, hmaps⟩, -⟩ := (mem_new_iff hcopies).1 hp
  exact mem_places.2 ⟨v, hv, file, hmaps⟩

theorem mem_tests_entry {ns : List Name} {n : Name} (hlist : t.list b.source = .ok ns) (hn : n ∈ ns)
    (hname : Document.isPageName (b.source.child n) = true) : b.source.child n ∈ b.tests t := by
  have hentry : b.source.child n ∈ b.entryTests t := by
    rw [entryTests, hlist]
    exact List.mem_filter.2 ⟨List.mem_map_of_mem hn, hname⟩
  exact List.mem_append_left _ (List.mem_cons_of_mem _ hentry)

theorem mem_tests_directive {d : Directive} (hv : v ∈ b.visits t) (hd : d ∈ b.directivesAt v)
    (hasks : d.asks = true) : d.actual ∈ b.tests t := by
  refine List.mem_append_right _ (List.mem_flatMap.2 ⟨v, hv, List.mem_append_left _ ?_⟩)
  exact List.mem_map_of_mem (List.mem_filter.2 ⟨hd, hasks⟩)

theorem mem_tests_reference (hv : v ∈ b.visits t) (hmaps : b.Maps v file target)
    (hnew : target ∉ v.written) (hp : p ∈ Relink.copyTests b.copying (b.copyAt v file target)) :
    p ∈ b.tests t := by
  have hentry : (file, target) ∈ (b.found v).targets.entries.filter fun e => e.2 ∉ v.written :=
    List.mem_filter.2 ⟨maps_iff_mem.1 hmaps, by simpa using hnew⟩
  exact List.mem_append_right _ (List.mem_flatMap.2
    ⟨v, hv, List.mem_append_right _ (List.mem_flatMap.2 ⟨_, hentry, hp⟩)⟩)

/-- What a run tests is named by an absolute path. -/
theorem tests_absolute (hb : b.Live) (hp : p ∈ b.tests t) : p.isAbsolute = true := by
  rcases List.mem_append.1 hp with hsource | hvisit
  · rcases List.mem_cons.1 hsource with rfl | hentry
    · exact hb.normal.1.absolute
    · obtain ⟨n, -, rfl⟩ := List.mem_map.1 (List.mem_filter.1 hentry).1
      exact hb.normal.1.absolute
  · obtain ⟨v, hv, hp⟩ := List.mem_flatMap.1 hvisit
    rcases List.mem_append.1 hp with hdirective | hreference
    · obtain ⟨d, hd, rfl⟩ := List.mem_map.1 hdirective
      obtain ⟨hd, hasks⟩ := List.mem_filter.1 hd
      exact (askedAt_normal hb hv (mem_askedAt_of_asks hd hasks)).absolute
    · obtain ⟨e, he, hp⟩ := List.mem_flatMap.1 hreference
      obtain ⟨m, rfl⟩ := Relink.exists_denotes_of_mem_copyTests hp
      have hmaps := maps_iff_mem.2 (List.mem_filter.1 he).1
      exact (Path.refer_normal (found_placed hb hv _ _ hmaps).1.absolute _).absolute

namespace Feasible

section Documents

variable (hb : b.Live) (ht : t.LinkFree) (h : b.Feasible t)

include hb ht h

/-- The source as it stands in the tree. -/
theorem status?_source :
    t.isDirectory? b.source = .ok true ∨
      t.isDirectory? b.source = .ok false ∧ ∃ content,
        t.status? b.source = .ok (some (.file content)) := by
  obtain ⟨e, hstatus, -⟩ := checkSource_eq_ok_iff.1 h.source
  have hentry := entryAt_of_status? ht hb.normal.1 hstatus
  cases e with
  | directory => exact .inl (isDirectory?_eq_true_iff.2 hstatus)
  | file content =>
      refine .inr ⟨?_, content, hstatus⟩
      rw [isDirectory?, hstatus]
      rfl
  | link target => exact absurd hentry (ht _ target)

theorem entryAt_home : t.entryAt (b.home t).location = some .directory := by
  rcases h.status?_source hb ht with hdir | ⟨hdir, content, hstatus⟩
  · rw [home, hdir]
    exact entryAt_of_status? ht hb.normal.1 (isDirectory?_eq_true_iff.1 hdir)
  · have hentry := entryAt_of_status? ht hb.normal.1 hstatus
    have hne : b.source.names ≠ [] := names_ne_nil_of_isDirectory? hb.normal.1 hdir
    obtain ⟨names, n, hnames⟩ := (List.eq_nil_or_concat' b.source.names).resolve_left hne
    have hlocation : b.source.location = n :: b.source.parent.location := by
      simp [Path.location, Path.parent, hnames]
    rw [home, hdir]
    exact entryAt_parent (hlocation ▸ hentry)

/-- The documents at the source are files. -/
theorem status?_top (hv : v ∈ b.visits t) :
    ∃ content, t.status? v.file = .ok (some (.file content)) := by
  obtain ⟨es, docs, htop, hmem⟩ := exists_topLevel_of_mem_visits hv
  rcases topLevel_eq_ok_iff.1 htop with ⟨hdir, -, rfl⟩ | ⟨-, -, ns, -, hdocs⟩
  · obtain ⟨hfile, -⟩ := Prod.mk.inj (List.mem_singleton.1 hmem)
    rcases h.status?_source hb ht with hdir' | ⟨-, hstatus⟩
    · exact absurd (hdir.symm.trans hdir') (by simp)
    · exact hfile ▸ hstatus
  · obtain ⟨n, -, hpage, heq⟩ := exists_of_mem_pagesAmong hb.normal.2 hdocs hmem
    rw [(Prod.mk.inj heq).1]
    exact (Document.isPage?_eq_true_iff.1 hpage).2

omit ht in
theorem mirrors (hv : v ∈ b.visits t) (hmaps : b.Maps v file target) :
    Mirrors (b.home t) b.workingDir file target :=
  found_mirrors hb hv (h.below v hv) file target hmaps

omit hb ht in
theorem home_suffix (hv : v ∈ b.visits t) (hmaps : b.Maps v file target) :
    (b.home t).location <:+ file.location :=
  List.reverse_suffix.2 (h.below v hv file (Search.mem_keys_of_get? hmaps)).1

/-- Nothing lies both below the source and below the working directory. -/
theorem not_both (hsource : (b.home t).location <:+ loc)
    (hworking : b.workingDir.location <:+ loc) : False := by
  rcases List.suffix_or_suffix_of_suffix hsource hworking with habove | hbelow
  · exact h.apart habove
  · have hdir := directory_above (h.entryAt_home hb ht) hbelow
    rw [h.free] at hdir
    cases hdir

/-- **Below the source, nothing is written.** -/
theorem entryAt_below (hu : Changes (· ∈ b.places t) t u) (hloc : (b.home t).location <:+ loc) :
    u.entryAt loc = t.entryAt loc := by
  have hplace : ∀ p, p ∈ b.places t → loc <:+ p.location → False := by
    intro p hplace hp
    obtain ⟨v, hv, file, hmaps⟩ := mem_places.1 hplace
    exact h.not_both hb ht (hloc.trans hp) (h.mirrors hb hv hmaps).location_suffix
  rcases hu loc with hsame | ⟨p, hp, rfl, -⟩ | ⟨p, hp, habove, -, -⟩
  · exact hsame
  · exact absurd List.suffix_rfl (hplace p hp)
  · exact absurd habove (hplace p hp)

/-- **Every document is a file** of the tree that the run starts with. -/
theorem file_of_maps (hv : v ∈ b.visits t) (hmaps : b.Maps v file target) :
    file.Nameable ∧ ∃ content, t.entryAt file.location = some (.file content) := by
  have hnormal := (h.mirrors hb hv hmaps).1
  have hkey := Search.mem_keys_of_get? hmaps
  by_cases htop : file = v.file
  · obtain ⟨content, hstatus⟩ := htop ▸ h.status?_top hb ht hv
    obtain ⟨loc, hres, -⟩ := status?_eq_some_iff.1 hstatus
    exact ⟨nameable_of_resolve ht hnormal hres, content, entryAt_of_status? ht hnormal hstatus⟩
  · have hgrows : (b.search v).Grows ((.empty : Targets).insert v.file v.target)
        (b.found v).targets := Search.collect_grows (OrderedMap.get?_empty v.file)
    have hpage := hgrows.isPage? hkey (by simpa [Search.keys_enter] using htop)
    obtain ⟨content, hstatus⟩ := (Document.isPage?_eq_true_iff.1 hpage).2
    obtain ⟨loc, hres, -⟩ := status?_eq_some_iff.1 hstatus
    have hchanges := visits_changes hb ht hv
    have hfree := ht.of_changes hchanges
    refine ⟨nameable_of_resolve hfree hnormal hres, content, ?_⟩
    rw [← h.entryAt_below hb ht hchanges (h.home_suffix hv hmaps)]
    exact entryAt_of_status? hfree hnormal hstatus

/-- Every document has bytes, at all times, and they have lines. -/
theorem readFile_of_maps (hv : v ∈ b.visits t) (hu : Changes (· ∈ b.places t) t u)
    (hmaps : b.Maps v file target) :
    ∃ content, u.readFile file = .ok content ∧ (Document.lines? b.encoding content).isSome := by
  obtain ⟨hfits, content, hfile⟩ := h.file_of_maps hb ht hv hmaps
  have hread : ∀ w, Changes (· ∈ b.places t) t w → w.readFile file = .ok content := by
    intro w hw
    have hentry : w.entryAt file.location = some (.file content) :=
      (h.entryAt_below hb ht hw (h.home_suffix hv hmaps)).trans hfile
    have hres : w.resolve file = .ok (.entry file.location) :=
      resolve_of_entryAt (ht.of_changes hw) (h.mirrors hb hv hmaps).1 hfits (by rw [hentry]; rfl)
    exact readFile_eq_ok_iff.2 (status?_eq_some_iff.2 ⟨_, hres, hentry⟩)
  have hstart : content ∈ (t.readFile file).toOption := by
    rw [hread t (.refl _ t)]
    rfl
  exact ⟨content, hread u hu, h.decodes v hv file (Search.mem_keys_of_get? hmaps) content hstart⟩

/-- **Every document can be read**, at all times. -/
theorem read_of_maps (hv : v ∈ b.visits t) (hu : Changes (· ∈ b.places t) t u)
    (hmaps : b.Maps v file target) : ∃ ls, Document.read u file b.encoding = .ok ls := by
  obtain ⟨content, hread, hlines⟩ := h.readFile_of_maps hb ht hv hu hmaps
  obtain ⟨ls, hls⟩ := Option.isSome_iff_exists.1 hlines
  exact ⟨ls, Document.read_eq_ok_iff.2 ⟨hb.encoding_nullFree, content, hread, hls⟩⟩

/-- A place is where its document is, with the working directory in front instead of the source. -/
theorem exists_document (hp : p ∈ b.places t) :
    p.Normal ∧ p.anchor = b.workingDir.anchor ∧ ∃ names, p.names = b.workingDir.names ++ names ∧
      ∃ content, t.entryAt (names.reverse ++ (b.home t).location) = some (.file content) := by
  obtain ⟨v, hv, file, hmaps⟩ := mem_places.1 hp
  obtain ⟨hnormal, hanchor⟩ := hmaps.placed hb hv
  obtain ⟨-, content, hfile⟩ := h.file_of_maps hb ht hv hmaps
  obtain ⟨-, names, -, hnames, rfl⟩ := h.mirrors hb hv hmaps
  rw [Path.location, hnames, List.reverse_append] at hfile
  exact ⟨hnormal, hanchor, names, rfl, content, hfile⟩

/-- **No place lies above another one**: no document does. -/
theorem place_eq (hp : p ∈ b.places t) (hq : q ∈ b.places t) (habove : p.location <:+ q.location) :
    p = q := by
  obtain ⟨-, hanchor, names, hnames, content, hfile⟩ := h.exists_document hb ht hp
  obtain ⟨-, hanchor', names', hnames', content', hfile'⟩ := h.exists_document hb ht hq
  have hprefix : names <+: names' := by
    have hnames₂ := List.reverse_suffix.1 habove
    rwa [hnames, hnames', List.prefix_append_right_inj] at hnames₂
  have hsame : names = names' := by
    by_contra hne
    obtain ⟨rest, rfl⟩ := hprefix
    rw [List.reverse_append, List.append_assoc] at hfile'
    have hdir := directory_above_file hfile' (List.suffix_append _ _) (by simpa using hne)
    rw [hfile] at hdir
    cases hdir
  exact congrArg₂ Path.mk (hanchor.trans hanchor'.symm) (by rw [hnames, hnames', hsame])

/-- **Nothing is in the way** of the copies. -/
theorem unhindered : Unhindered (· ∈ b.places t) t where
  apart _ _ hp hq habove := congrArg Path.location (h.place_eq hb ht hp hq habove)
  free p hp := by
    obtain ⟨v, hv, file, hmaps⟩ := mem_places.1 hp
    exact entryAt_below_none h.free (h.mirrors hb hv hmaps).location_suffix
  above p hp loc hloc content hfile := by
    obtain ⟨v, hv, file, hmaps⟩ := mem_places.1 hp
    rcases List.suffix_or_suffix_of_suffix (h.mirrors hb hv hmaps).location_suffix hloc with
      hbelow | habove
    · rw [entryAt_below_none h.free hbelow] at hfile
      cases hfile
    · exact absurd (h.above loc ((List.mem_tails _ _).2 habove) _ hfile) (by simp)

end Documents

section Accepted

variable (hb : b.Live) (ht : t.LinkFree) (h : b.Feasible t) (haccepted : b.Accepted t)

include h haccepted

/-- The paths of the places are those of files. -/
theorem nameable (hp : p ∈ b.places t) : p.Nameable :=
  ⟨haccepted.writes p hp, h.short p (List.mem_append_right _ hp)⟩

include hb

/-- **A path that is tested can be looked up** in every tree. -/
theorem answers (hu : u.LinkFree) (hp : p ∈ b.tests t) : u.Answers p :=
  answers_of_short hu (tests_absolute hb hp) (haccepted.tests p hp)
    (h.short p (List.mem_append_left _ hp))

include ht

omit haccepted in
/-- Lines that have bytes can be written. -/
theorem exists_encodes (hp : p ∈ b.places t) {lines : List Text}
    (hlines : ∀ l ∈ lines, Document.isWritable b.encoding l) :
    ∃ bytes, Document.Encodes b.encoding lines bytes := by
  obtain ⟨v, hv, file, hmaps⟩ := mem_places.1 hp
  obtain ⟨content, -, hdecodes⟩ := h.readFile_of_maps hb ht hv (.refl _ t) hmaps
  obtain ⟨e, he, htext⟩ := Document.exists_text_of_lines? hdecodes
  exact Document.exists_encodes hb.encoding_nullFree he htext hlines

/-- **Every search comes to its end.** -/
theorem found_isOk (hv : v ∈ b.visits t) : (b.found v).result.isOk := by
  cases hresult : (b.found v).result with
  | ok page => rfl
  | error e =>
      exfalso
      have hchanges := visits_changes hb ht hv
      rcases Search.collect_error hresult with
        ⟨file, target, hmaps, hdir⟩ | ⟨d, f, hpending, hpromotes, rfl⟩
      · obtain ⟨ls, hread⟩ := h.read_of_maps hb ht hv hchanges hmaps
        exact absurd (hread.symm.trans (error_of_map_eq_error hdir)) (by simp)
      · obtain ⟨file, target, ds, hmaps, hds, hd⟩ := hpending
        obtain ⟨hasks, rfl, hlong⟩ := Directive.promotes?_error hpromotes
        exact hlong (h.answers hb haccepted (ht.of_changes hchanges)
          (mem_tests_directive hv (mem_directivesAt hmaps hds hd) hasks))

/-- **A copy has lines**: its document can be read, and every reference can be looked up. -/
theorem exists_lines (hv : v ∈ b.visits t) (hmaps : b.Maps v file target)
    (hnew : target ∉ v.written) (hu : Changes (· ∈ b.places t) t (b.copyAt v file target).tree) :
    ∃ ls es out, Document.read (b.copyAt v file target).tree file b.encoding = .ok ls ∧
      Relink.lines (b.copyAt v file target) b.copying.kinds b.attributes ls = (es, .ok out) := by
  obtain ⟨ls, hread⟩ := h.read_of_maps hb ht hv hu hmaps
  cases hlines : Relink.lines (b.copyAt v file target) b.copying.kinds b.attributes ls with
  | mk es result =>
      cases result with
      | ok out => exact ⟨ls, es, out, hread, hlines⟩
      | error f =>
          exfalso
          obtain ⟨l, hl, hline⟩ := Relink.lines_error (congrArg Prod.snd hlines)
          obtain ⟨p, hp, hlong⟩ := Relink.exists_lineTests_of_error hline
          exact hlong (h.answers hb haccepted (ht.of_changes hu)
            (mem_tests_reference hv hmaps hnew (Relink.mem_copyTests hread hl hp)))

/-- **A copy is made**, and leaves a tree like the one that it finds. -/
theorem copy_made (hv : v ∈ b.visits t) (hmaps : b.Maps v file target) (hnew : target ∉ v.written)
    (hu : Written (· ∈ b.places t) t (b.copyAt v file target).tree) :
    ∃ w es, Relink.copy b.copying (b.found v).targets file target (b.copyAt v file target).tree =
      ⟨w, es, .ok ()⟩ ∧ Written (· ∈ b.places t) t w := by
  have hplace : target ∈ b.places t := mem_places.2 ⟨v, hv, file, hmaps⟩
  obtain ⟨ls, es, out, hread, hlines⟩ := h.exists_lines hb ht haccepted hv hmaps hnew hu.changes
  have hout : Relink.copyLines? b.copying (b.copyAt v file target) = some out :=
    Relink.copyLines?_of_lines hread (congrArg Prod.snd hlines)
  obtain ⟨bytes, hbytes⟩ := h.exists_encodes hb ht hplace
    (h.encodes v hv _ (maps_iff_mem.1 hmaps) hnew out hout)
  obtain ⟨w, hwrite, hw⟩ := (h.unhindered hb ht).write ht hu hplace (hmaps.placed hb hv).1
    (h.nameable haccepted hplace) hbytes
  exact ⟨w, .copied file target :: es, Relink.copy_of_write hread hlines hwrite, hw⟩

/-- **The copies of a visit are made.** -/
theorem copies_made (hv : v ∈ b.visits t) (hu : Written (· ∈ b.places t) t v.tree) :
    (b.copies v).result.isOk ∧ Written (· ∈ b.places t) t (b.copies v).tree := by
  refine Relink.copyEach_keeps (fun before file target after hentries hnew hbefore => ?_) hu
  have hat : (b.copyAt v file target).tree =
      (Relink.copyEach b.copying (b.found v).targets v.written before v.tree).tree := by
    rw [copyAt, takeWhile_entries hentries]
  have hmaps : b.Maps v file target := maps_iff_mem.2 (by rw [hentries]; simp)
  rw [← hat] at hbefore ⊢
  exact h.copy_made hb ht haccepted hv hmaps hnew hbefore

/-- The documents at the source are found. -/
theorem exists_topLevel : ∃ es docs, b.topLevel t = (es, .ok docs) := by
  rcases h.status?_source hb ht with hdir | ⟨hdir, -⟩
  · have hlist := list_of_isDirectory? ht hb.normal.1 hdir
    have hentries : ∀ n ∈ t.namesIn b.source.location, Document.isPageName (b.source.child n) = true →
        t.Answers (b.source.child n) := fun n hn hname =>
      h.answers hb haccepted ht (mem_tests_entry hlist hn hname)
    obtain ⟨docs, hdocs⟩ := exists_pagesAmong hb.normal.2 hentries
    exact ⟨_, docs, topLevel_eq_ok_iff.2 (.inr ⟨hdir, rfl, _, hlist, hdocs⟩)⟩
  · exact ⟨_, _, topLevel_eq_ok_iff.2 (.inl ⟨hdir, rfl, rfl⟩)⟩

/-- **The run returns.** -/
theorem run_isOk : (b.run t).result.isOk := by
  cases hpages : b.pages with
  | some pages => rw [run_of_pages hpages]; rfl
  | none =>
      obtain ⟨es, docs, htop⟩ := h.exists_topLevel hb ht haccepted
      have hwritten : ∀ v ∈ b.visits t, Written (· ∈ b.places t) t v.tree :=
        visits_keeps (fun v hv hu _ _ => (h.copies_made hb ht haccepted hv hu).2)
          (h.unhindered hb ht).start
      rw [(run_of_topLevel hpages htop).2.2]
      cases hresult : (b.makePages docs t b.written).result with
      | ok pages => rfl
      | error e =>
          exfalso
          obtain ⟨v, hv, hfails⟩ := makePages_error hresult
          have hv : v ∈ b.visits t := visits_of_topLevel hpages htop ▸ hv
          have hfound := h.found_isOk hb ht haccepted hv
          have hcopies := (h.copies_made hb ht haccepted hv (hwritten v hv)).1
          rcases hfails with ⟨herror, -⟩ | ⟨herror, -⟩
          · rw [herror] at hfound
            cases hfound
          · rw [herror] at hcopies
            cases hcopies

end Accepted

end Feasible

/-- **A run against which nothing stands returns**, if the system accepts its paths. No place of a
document lies above another one, and there is room at each of them when any documents have been
written at any of them, in any order, which cannot fail either. -/
theorem run_feasible (hb : b.Live) (ht : t.LinkFree) (h : b.Feasible t) (haccepted : b.Accepted t) :
    (b.run t).result.isOk ∧
      (∀ p q, p ∈ b.places t → q ∈ b.places t → p.location <:+ q.location → p = q) ∧
      ∀ docs : List (Path × List Text),
        (∀ d ∈ docs, d.1 ∈ b.places t ∧ ∀ l ∈ d.2, Document.isWritable b.encoding l) →
        ∃ u, Document.writeEach b.encoding docs t = (u, .ok ()) ∧
          ∀ p ∈ b.places t, Room u p := by
  have hunhindered := h.unhindered hb ht
  refine ⟨h.run_isOk hb ht haccepted, fun p q => h.place_eq hb ht, fun docs hdocs => ?_⟩
  obtain ⟨u, hwrite, hu⟩ := hunhindered.writeEach ht hunhindered.start fun d hd =>
    ⟨(hdocs d hd).1, (h.exists_document hb ht (hdocs d hd).1).1,
      h.nameable haccepted (hdocs d hd).1, h.exists_encodes hb ht (hdocs d hd).1 (hdocs d hd).2⟩
  exact ⟨u, hwrite, fun p hp => hunhindered.room hu hp⟩

/-- The documents of `ladder` are all copied. -/
theorem ladder_run_feasible :
    (ladder.Live ∧ ladderTree.LinkFree ∧ ladder.Feasible ladderTree ∧ ladder.Accepted ladderTree) ∧
      (ladder.run ladderTree).result.isOk ∧
      (∀ p q, p ∈ ladder.places ladderTree → q ∈ ladder.places ladderTree →
        p.location <:+ q.location → p = q) ∧
      ∀ docs : List (Path × List Text),
        (∀ d ∈ docs, d.1 ∈ ladder.places ladderTree ∧
          ∀ l ∈ d.2, Document.isWritable ladder.encoding l) →
        ∃ u, Document.writeEach ladder.encoding docs ladderTree = (u, .ok ()) ∧
          ∀ p ∈ ladder.places ladderTree, Room u p := by
  have hfree : ladderTree.LinkFree := linkFree_of_entries (by decide +kernel)
  have hfeasible : ladder.Feasible ladderTree := by decide +kernel
  have haccepted : ladder.Accepted ladderTree := by decide +kernel
  exact ⟨⟨ladder_live, hfree, hfeasible, haccepted⟩,
    run_feasible ladder_live hfree hfeasible haccepted⟩

def soloTree : FileTree := .ofFiles [("/docs/index.adoc", "= A\n")]

/-- A build of this document below some working directory. -/
def solo (workingDir : Text) : Build :=
  ⟨Path.absolute soloTree.cwdPath (.ofText "/docs/index.adoc".toList),
    Path.absolute soloTree.cwdPath (.ofText workingDir), .empty, "utf-8".toList, [], none⟩

/-- The path of a directory, in fifteen others, that is almost too long. -/
def deep : Text :=
  (List.replicate 15 ('/' :: .replicate 255 'd')).flatten ++ '/' :: .replicate 200 'd'

/-- A document deep down, with a reference of sixty characters. -/
def remoteTree : FileTree :=
  let line : Text := "link:".toList ++ .replicate 60 'x' ++ "[L]\n".toList
  (putEntries [(.ofText (deep ++ "/index.adoc".toList),
    .file (line.map fun c => UInt8.ofNat c.toNat))] (empty [])).1

def remote : Build :=
  ⟨Path.absolute remoteTree.cwdPath (.ofText (deep ++ "/index.adoc".toList)),
    Path.absolute remoteTree.cwdPath (.ofText "/work".toList), .empty, "utf-8".toList, [], none⟩

/-- **Short names are not enough**: runs fail below a working directory that leaves no room for the
names of documents, or that no file can have, and at a reference that is too long as a whole. -/
theorem short_names_fail :
    let long : Text := deep ++ .replicate 54 'd'
    (∀ place ∈ [long, "/w".toList ++ ['\x00'], "/w".toList ++ [Half.ofCode 0xD800]],
      (solo place).Live ∧ soloTree.LinkFree ∧ (solo place).Feasible soloTree ∧
        ¬ ((solo place).run soloTree).result.isOk) ∧
    remote.Live ∧ remoteTree.LinkFree ∧ remote.Feasible remoteTree ∧
      ¬ (remote.run remoteTree).result.isOk := by
  intro long
  have hplaces : ∀ place ∈ [long, "/w".toList ++ ['\x00'], "/w".toList ++ [Half.ofCode 0xD800]],
      (open? soloTree (.ofText "/docs/index.adoc".toList) (.ofText place) .empty
        "utf-8".toList).isOk ∧
        (solo place).Feasible soloTree ∧ ¬ ((solo place).run soloTree).result.isOk := by
    decide +kernel
  have hremote : (open? remoteTree (.ofText (deep ++ "/index.adoc".toList)) (.ofText "/work".toList)
        .empty "utf-8".toList).isOk ∧ (∀ e ∈ remoteTree.entries.entries, e.2.isLink = false) ∧
      remote.Feasible remoteTree ∧ ¬ (remote.run remoteTree).result.isOk := by
    decide +kernel
  refine ⟨fun place hplace => ?_, .of_isOk hremote.1, linkFree_of_entries hremote.2.1, hremote.2.2⟩
  obtain ⟨hopen, hfeasible, hfails⟩ := hplaces place hplace
  exact ⟨.of_isOk hopen, linkFree_of_entries (by decide +kernel), hfeasible, hfails⟩

end Build

end Folio

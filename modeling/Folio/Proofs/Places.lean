import Folio.Build
import Folio.Proofs.Normal
import Folio.Proofs.Outline
import Mathlib.Data.List.Basic

/-!
# The places of documents

A document gets its place from the document that includes it, and the documents at the source get
theirs from the build. So what holds of the place of every document is shown in two parts.

**Along the search (`Search.Follows.all`).** A property that passes from a document and its place to
the documents that it refers to (`Inherits`) holds of all targets that a search adds.

**At the source (`Build.mirrors_topLevel`).** A document at the source has the same names below the
directory of the source as its place has below the working directory (`Mirrors`).

Two properties are inherited: the place is a normal path, and, as long as the documents lie below
the directory of the source, document and place mirror each other.
-/

namespace Folio

open FileTree

/-! ## Properties of documents and their places -/

/-- The property passes from a document and its place to any document that it refers to, if that
one is allowed. -/
def Inherits (allowed : Path → Prop) (P : Path → Path → Prop) : Prop :=
  ∀ (base file target : Path) (path : Text), P file target → allowed (Document.refer file path) →
    P (Document.refer file path) (Document.targetOf base file target (Document.refer file path))

def Targets.All (P : Path → Path → Prop) (m : Targets) : Prop :=
  ∀ file target, m.get? file = some target → P file target

/-- All documents that are promoted in some events are allowed. -/
def Allowed (allowed : Path → Prop) (es : List Event) : Prop :=
  ∀ path actual result file target, .promoted path actual result file target ∈ es → allowed actual

theorem Allowed.mono {allowed : Path → Prop} {es es' : List Event} (hes : Allowed allowed es')
    (h : es ⊆ es') : Allowed allowed es :=
  fun path actual result file target he => hes path actual result file target (h he)

/-- The document that is promoted in an event. -/
def Event.promoted? : Event → Option Path
  | .promoted _ actual _ _ _ => some actual
  | _ => none

theorem allowed_of_promoted? {allowed : Path → Prop} {es : List Event}
    (h : ∀ e ∈ es, ∀ actual ∈ e.promoted?, allowed actual) : Allowed allowed es :=
  fun _ _ _ _ _ he => h _ he _ rfl

namespace Search

variable {s : Search} {allowed : Path → Prop} {P : Path → Path → Prop}

/-- What the directives of a document have in common. -/
theorem mem_directives {file target : Path} {ds : List Directive} {d : Directive}
    (h : s.directives file target = .ok ds) (hd : d ∈ ds) :
    d.file = file ∧ d.target = target ∧ d.actual = Document.refer file d.path ∧
      d.result = Document.targetOf s.tree.cwdPath file target d.actual := by
  rw [directives] at h
  cases hread : Document.read s.tree file s.encoding with
  | error e => simp [hread, Except.map] at h
  | ok lines =>
      rw [hread, Except.map, Except.ok.injEq] at h
      obtain ⟨line, -, hline⟩ := List.mem_filterMap.1 (h ▸ hd)
      obtain ⟨m, -, rfl⟩ := Option.map_eq_some_iff.1 hline
      exact ⟨rfl, rfl, rfl, rfl⟩

/-- The directives of a document with the property have it as far as they are allowed. -/
theorem all_directives (hP : Inherits allowed P) {file target : Path} {ds : List Directive}
    (h : s.directives file target = .ok ds) (hfile : P file target) :
    ∀ d ∈ ds, allowed d.actual → P d.actual d.result := by
  intro d hd hallowed
  obtain ⟨-, -, hactual, hresult⟩ := mem_directives h hd
  rw [hresult]
  rw [hactual] at hallowed ⊢
  exact hP _ file target d.path hfile hallowed

theorem all_insert {m : Targets} {file target : Path} (hm : m.All P) (h : P file target) :
    Targets.All P (m.insert file target) := by
  intro p v hp
  rw [OrderedMap.get?_insert] at hp
  split at hp
  · next heq =>
      obtain rfl := Option.some.inj hp
      exact heq ▸ h
  · exact hm p v hp

/-- **The property passes along the search.** -/
theorem Follows.all (hP : Inherits allowed P) {m m' : Targets} {ds : List Directive}
    {es : List Event} {ts : List Outline} (h : s.Follows m ds m' es ts) (hm : m.All P)
    (hds : ∀ d ∈ ds, allowed d.actual → P d.actual d.result) (hes : Allowed allowed es) :
    m'.All P := by
  induction h with
  | nil => exact hm
  | kept _ _ ih =>
      exact ih hm (fun d hd => hds d (List.mem_cons_of_mem _ hd))
        (hes.mono (List.subset_cons_self _ _))
  | revisited _ _ _ ih =>
      exact ih hm (fun d hd => hds d (List.mem_cons_of_mem _ hd))
        (hes.mono (List.subset_cons_self _ _))
  | @promoted _ _ _ d _ _ _ _ _ _ _ _ hdir _ _ ih₁ ih₂ =>
      have hd : P d.actual d.result :=
        hds d List.mem_cons_self (hes d.path d.actual d.result d.file d.target List.mem_cons_self)
      have hinner := ih₁ (all_insert hm hd) (all_directives hP hdir hd)
        (hes.mono fun e he => by simp [he])
      exact ih₂ hinner (fun d hd => hds d (List.mem_cons_of_mem _ hd))
        (hes.mono fun e he => by simp [he])

theorem collect_all (hP : Inherits allowed P) {file target : Path} {page : Page}
    (hpage : (s.collect file target .empty).result = .ok page) (hfile : P file target)
    (hes : Allowed allowed (s.collect file target .empty).events) :
    (s.collect file target .empty).targets.All P := by
  obtain ⟨ds, m', es, ts, hdir, hf, hcollect⟩ := collect_follows (OrderedMap.get?_empty file) hpage
  rw [hcollect] at hes ⊢
  have hempty : Targets.All P .empty := fun p v hp => absurd hp (by simp)
  exact hf.all hP (all_insert hempty hfile) (all_directives hP hdir hfile)
    (hes.mono (List.subset_cons_self _ _))

end Search

/-! ## Places -/

theorem Path.refer_normal {file : Path} (h : file.isAbsolute = true) (path : Text) :
    (Document.refer file path).Normal := by
  refine normalize_normal ?_
  rw [join]
  split
  · assumption
  · exact h

/-- The path lies below a directory. -/
def Path.Below (top p : Path) : Prop := top.names <+: p.names ∧ top.names ≠ p.names

instance (top p : Path) : Decidable (top.Below p) :=
  inferInstanceAs (Decidable (top.names <+: p.names ∧ top.names ≠ p.names))

/-- The place has the names below the directory `dest` that the document has below `source`. -/
def Mirrors (source dest file target : Path) : Prop :=
  file.Normal ∧ ∃ names, names ≠ [] ∧ file.names = source.names ++ names ∧
    target = ⟨dest.anchor, dest.names ++ names⟩

theorem Mirrors.normal {source dest file target : Path} (hdest : dest.Normal)
    (h : Mirrors source dest file target) : target.Normal := by
  obtain ⟨hfile, names, -, hnames, rfl⟩ := h
  exact hdest.of_append fun hup => hfile.plain (hnames ▸ List.mem_append_right _ hup)

theorem inherits_normal :
    Inherits (fun _ => True) fun file target => file.Normal ∧ target.Normal :=
  fun _ _ _ path h _ => ⟨Path.refer_normal h.1.absolute path, Path.targetOf_normal h.2.absolute⟩

/-- **Below the source, documents have their places below the working directory.** -/
theorem inherits_mirrors {source dest : Path} (hdest : dest.Normal) :
    Inherits source.Below (Mirrors source dest) := by
  rintro base file target path ⟨hfile, names, hne, hnames, rfl⟩ ⟨⟨names', hnames'⟩, hbelow⟩
  have hother : (Document.refer file path).Normal := Path.refer_normal hfile.absolute path
  have hne' : names' ≠ [] := by
    rintro rfl
    exact hbelow (by rw [← hnames', List.append_nil])
  exact ⟨hother, names', hne', hnames'.symm,
    Path.targetOf_below hfile hother hdest hnames hnames'.symm hne⟩

/-! ## The documents at the source -/

theorem exists_of_bind_eq_ok {ε α β : Type} {x : Except ε α} {f : α → Except ε β} {b : β}
    (h : (x >>= f) = .ok b) : ∃ a, x = .ok a ∧ f a = .ok b := by
  cases x with
  | error e => exact absurd h (by simp [bind, Except.bind])
  | ok a => exact ⟨a, rfl, h⟩

theorem error_of_bind_eq_error {ε α β : Type} {x : Except ε α} {f : α → Except ε β} {e : ε}
    (h : (x >>= f) = .error e) : x = .error e ∨ ∃ a, x = .ok a ∧ f a = .error e := by
  cases x with
  | error e' => exact .inl (congrArg Except.error (Except.error.inj h))
  | ok a => exact .inr ⟨a, rfl, h⟩

theorem exists_of_map_eq_ok {ε α β : Type} {f : α → β} {x : Except ε α} {b : β}
    (h : x.map f = .ok b) : ∃ a, x = .ok a ∧ f a = b := by
  cases x with
  | error e => exact absurd h (by simp [Except.map])
  | ok a => exact ⟨a, rfl, Except.ok.inj h⟩

theorem error_of_map_eq_error {ε α β : Type} {f : α → β} {x : Except ε α} {e : ε}
    (h : x.map f = .error e) : x = .error e := by
  cases x with
  | error e' => exact congrArg Except.error (Except.error.inj h)
  | ok a => exact absurd h (by simp [Except.map])

namespace Build

/-- A build that has been opened, and may have been run. -/
inductive Live : Build → Prop
  | opened {t : FileTree} {source workingDir : Path} {attributes : Attributes} {encoding : Text}
      {b : Build} : open? t source workingDir attributes encoding = .ok b → Live b
  | ran {b : Build} (t : FileTree) : Live b → Live (b.after (b.run t))

theorem open?_eq_ok {t : FileTree} {source workingDir : Path} {attributes : Attributes}
    {encoding : Text} {b : Build} (h : open? t source workingDir attributes encoding = .ok b) :
    b = ⟨Path.absolute t.cwdPath source, Path.absolute t.cwdPath workingDir, attributes, encoding,
      [], none⟩ := by
  obtain ⟨_, -, h⟩ := exists_of_bind_eq_ok h
  obtain ⟨_, -, h⟩ := exists_of_bind_eq_ok h
  obtain ⟨_, -, h⟩ := exists_of_bind_eq_ok h
  exact (Except.ok.inj h).symm

theorem open?_of_isOk {t : FileTree} {source workingDir : Path} {attributes : Attributes}
    {encoding : Text} (h : (open? t source workingDir attributes encoding).isOk) :
    open? t source workingDir attributes encoding =
      .ok ⟨Path.absolute t.cwdPath source, Path.absolute t.cwdPath workingDir, attributes, encoding,
        [], none⟩ := by
  cases hopen : open? t source workingDir attributes encoding with
  | error e =>
      rw [hopen] at h
      exact absurd h Bool.false_ne_true
  | ok b => rw [open?_eq_ok hopen]

theorem Live.of_isOk {t : FileTree} {source workingDir : Path} {attributes : Attributes}
    {encoding : Text} (h : (open? t source workingDir attributes encoding).isOk) :
    Live ⟨Path.absolute t.cwdPath source, Path.absolute t.cwdPath workingDir, attributes, encoding,
      [], none⟩ :=
  .opened (open?_of_isOk h)

theorem checkSource_eq (t : FileTree) (source : Path) :
    checkSource t source =
      match t.status? source with
      | .error f => .error (.uncertain f)
      | .ok none => .error (.sourceMissing source)
      | .ok (some .directory) => .ok ()
      | .ok (some _) =>
          if Document.isPageName source then .ok () else .error (.sourceUnsupported source) := by
  rw [checkSource, exists?, isDirectory?]
  cases t.status? source with
  | error f => rfl
  | ok e =>
      cases e with
      | none => rfl
      | some e => cases e <;> rfl

theorem checkWorkingDir_eq (t : FileTree) (workingDir : Path) :
    checkWorkingDir t workingDir =
      match t.status? workingDir with
      | .error f => .error (.uncertain f)
      | .ok none => .ok ()
      | .ok (some .directory) => .ok ()
      | .ok (some _) => .error (.workingNotDirectory workingDir) := by
  rw [checkWorkingDir, exists?, isDirectory?]
  cases t.status? workingDir with
  | error f => rfl
  | ok e =>
      cases e with
      | none => rfl
      | some e => cases e <;> rfl

/-- **A source is fit for a build** if it is a directory, or something else called like a document.
-/
theorem checkSource_eq_ok_iff {t : FileTree} {source : Path} :
    checkSource t source = .ok () ↔ ∃ e, t.status? source = .ok (some e) ∧
      (e = .directory ∨ Document.isPageName source = true) := by
  rw [checkSource_eq]
  cases t.status? source with
  | error f => simp
  | ok e =>
      cases e with
      | none => simp
      | some e => cases e <;> simp

/-- **A working directory is fit for a build** if nothing but a directory stands there. -/
theorem checkWorkingDir_eq_ok_iff {t : FileTree} {workingDir : Path} :
    checkWorkingDir t workingDir = .ok () ↔
      t.status? workingDir = .ok none ∨ t.status? workingDir = .ok (some .directory) := by
  rw [checkWorkingDir_eq]
  cases t.status? workingDir with
  | error f => simp
  | ok e =>
      cases e with
      | none => simp
      | some e => cases e <;> simp

theorem absolute_normal (t : FileTree) (p : Path) : (Path.absolute t.cwdPath p).Normal := by
  refine Path.normalize_normal ?_
  rw [Path.join]
  split
  · assumption
  · rfl

theorem Live.normal {b : Build} (h : b.Live) : b.source.Normal ∧ b.workingDir.Normal := by
  induction h with
  | opened h =>
      obtain rfl := open?_eq_ok h
      exact ⟨absolute_normal _ _, absolute_normal _ _⟩
  | ran _ _ ih => exact ih

/-- The directory of the source: the source itself if it is one. -/
def home (b : Build) (t : FileTree) : Path :=
  match t.isDirectory? b.source with
  | .ok true => b.source
  | _ => b.source.parent

/-- The name of a document does not lead upwards. -/
theorem ne_up_of_isPage? {t : FileTree} {source : Path} {n : Name}
    (h : Document.isPage? t (source.child n) = .ok true) : n ≠ .up := by
  rintro rfl
  have hname : Document.isPageName (source.child .up) = false := by
    rw [Document.isPageName, Path.baseName, Path.child, List.getLast?_concat]
    rfl
  rw [Document.isPage?, hname] at h
  exact absurd h (by simp)

theorem mirrors_child {source dest : Path} (hsource : source.Normal) {n : Name} (hn : n ≠ .up) :
    Mirrors source dest (source.child n) (dest.child n) :=
  ⟨hsource.of_append (by simpa using Ne.symm hn), [n], by simp, rfl, rfl⟩

theorem graft?_child {source dest : Path} (hdest : dest.Normal) {n : Name} (hn : n ≠ .up) :
    Path.graft? source (source.child n) dest = some (dest.child n) := by
  have hbelow : Path.below? source (source.child n) = some [n] := by
    simp [Path.below?, Path.child]
  rw [Path.graft?, hbelow, Option.map_some,
    (hdest.of_append (by simpa using Ne.symm hn)).normalize_eq, Path.child]

/-- The documents in a directory are those of its names that are found to be documents. -/
theorem pagesAmong_eq_ok_iff {t : FileTree} {source dest : Path} (hdest : dest.Normal)
    {names : List Name} {docs : List (Path × Path)} :
    pagesAmong t source dest names = .ok docs ↔
      (∀ n ∈ names, (Document.isPage? t (source.child n)).isOk) ∧
      docs = (names.filter fun n => Document.isPage? t (source.child n) = .ok true).map
        fun n => (source.child n, dest.child n) := by
  induction names generalizing docs with
  | nil =>
      constructor
      · intro h
        obtain rfl := Except.ok.inj h
        exact ⟨by simp, rfl⟩
      · rintro ⟨-, rfl⟩
        rfl
  | cons n names ih =>
      rw [List.forall_mem_cons, pagesAmong]
      cases hpage : Document.isPage? t (source.child n) with
      | error f => simp [Except.isOk, Except.toBool]
      | ok isPage =>
          have hok : (Except.ok isPage : Except Fault Bool).isOk = true := rfl
          cases isPage with
          | false => simp [ih, hok, hpage]
          | true =>
              simp only [graft?_child hdest (ne_up_of_isPage? hpage), hok, true_and]
              rw [List.filter_cons_of_pos (by simp [hpage]), List.map_cons]
              constructor
              · intro h
                obtain ⟨rest, hrest, rfl⟩ := exists_of_map_eq_ok h
                obtain ⟨hall, rfl⟩ := ih.1 hrest
                exact ⟨hall, rfl⟩
              · rintro ⟨hall, rfl⟩
                rw [ih.2 ⟨hall, rfl⟩]
                rfl

theorem exists_of_mem_pagesAmong {t : FileTree} {source dest : Path} (hdest : dest.Normal)
    {names : List Name} {docs : List (Path × Path)} (h : pagesAmong t source dest names = .ok docs)
    {e : Path × Path} (he : e ∈ docs) :
    ∃ n ∈ names, Document.isPage? t (source.child n) = .ok true ∧
      e = (source.child n, dest.child n) := by
  obtain ⟨-, rfl⟩ := (pagesAmong_eq_ok_iff hdest).1 h
  obtain ⟨n, hn, rfl⟩ := List.mem_map.1 he
  obtain ⟨hmem, hpage⟩ := List.mem_filter.1 hn
  exact ⟨n, hmem, of_decide_eq_true hpage, rfl⟩

/-- The documents at the source are that one document, or those in a directory. -/
theorem topLevel_eq_ok_iff {b : Build} {t : FileTree} {es : List Event} {docs : List (Path × Path)} :
    b.topLevel t = (es, .ok docs) ↔
      (t.isDirectory? b.source = .ok false ∧ es = [] ∧
        docs = [(b.source, b.workingDir.join ⟨.here, b.source.names.getLast?.toList⟩)]) ∨
      (t.isDirectory? b.source = .ok true ∧ es = [.listed b.source] ∧
        ∃ ns, t.list b.source = .ok ns ∧ pagesAmong t b.source b.workingDir ns = .ok docs) := by
  rw [topLevel]
  constructor
  · intro h
    split at h
    · exact absurd h (by simp)
    · next hdir =>
        obtain ⟨rfl, hdocs⟩ := Prod.mk.inj h
        exact .inl ⟨hdir, rfl, (Except.ok.inj hdocs).symm⟩
    · next hdir =>
        split at h
        · exact absurd h (by simp)
        · next ns hlist =>
            obtain ⟨rfl, hdocs⟩ := Prod.mk.inj h
            exact .inr ⟨hdir, rfl, ns, hlist, hdocs⟩
  · rintro (⟨hdir, rfl, rfl⟩ | ⟨hdir, rfl, ns, hlist, hdocs⟩)
    · rw [hdir]
    · rw [hdir]
      simp only [hlist, hdocs]

theorem isDirectory?_root (t : FileTree) {a : Anchor} (ha : a ≠ .here) :
    t.isDirectory? ⟨a, []⟩ = .ok true := by
  have hrefusal : refusal? ⟨a, []⟩ = none := by cases a <;> decide
  have hwalk : ∀ links, t.walk links false [] [] = .ok (.entry []) := by
    intro links
    cases links <;> rw [walk, follow, if_neg (by simp)]
  have hnames : t.namesOf ⟨a, []⟩ = [] := if_pos (by simpa [Path.isAbsolute] using ha)
  rw [isDirectory?, status?, resolve, hrefusal]
  simp only [hnames, hwalk]
  rfl

/-- Only the root has no name, and that is a directory. -/
theorem names_ne_nil_of_isDirectory? {t : FileTree} {source : Path} (hsource : source.Normal)
    (h : t.isDirectory? source = .ok false) : source.names ≠ [] := by
  intro hnil
  have hroot : source = ⟨source.anchor, []⟩ := congrArg (Path.mk _) hnil
  have ha : source.anchor ≠ .here := by simpa [Path.isAbsolute] using hsource.absolute
  rw [hroot, isDirectory?_root t ha] at h
  exact absurd h (by simp)

/-- A single document has its place right in the working directory. -/
theorem mirrors_file {source dest : Path} (hsource : source.Normal) (hne : source.names ≠ []) :
    Mirrors source.parent dest source (dest.join ⟨.here, source.names.getLast?.toList⟩) := by
  obtain ⟨n, hn⟩ : ∃ n, n = source.names.getLast hne := ⟨_, rfl⟩
  have hnames : source.names = source.names.dropLast ++ [n] :=
    hn ▸ (List.dropLast_concat_getLast hne).symm
  refine ⟨hsource, [n], List.cons_ne_nil n [], hnames, ?_⟩
  rw [Path.join_here, hn, List.getLast?_eq_some_getLast hne]
  rfl

/-- **The documents at the source** have their places in the working directory. -/
theorem mirrors_topLevel {b : Build} (hb : b.Live) {t : FileTree} {es : List Event}
    {docs : List (Path × Path)} (h : b.topLevel t = (es, .ok docs)) :
    ∀ e ∈ docs, Mirrors (b.home t) b.workingDir e.1 e.2 := by
  obtain ⟨hsource, hdest⟩ := hb.normal
  rw [home]
  rcases topLevel_eq_ok_iff.1 h with ⟨hdir, -, rfl⟩ | ⟨hdir, -, ns, -, hdocs⟩
  · rw [hdir]
    exact List.forall_mem_singleton.2
      (mirrors_file hsource (names_ne_nil_of_isDirectory? hsource hdir))
  · rw [hdir]
    intro e he
    obtain ⟨n, -, hpage, rfl⟩ := exists_of_mem_pagesAmong hdest hdocs he
    exact mirrors_child hsource (ne_up_of_isPage? hpage)

end Build

end Folio

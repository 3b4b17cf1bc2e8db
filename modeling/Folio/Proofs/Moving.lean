import Folio.Proofs.Replay
import Folio.Proofs.Twin

/-!
# Searches and copies below another directory

A search reads documents, asks for others by relative paths and gives them places, and copies have
references that lead from one place to another. **All of this goes on in the same way below another
directory that holds the same files**: documents, places, pages and events have their counterparts,
and the lines of copies are the same ones.

The paths that are written in documents must not lead out of the directory, not even for a moment
(`Document.StaysBelow`): above it, the trees need not be alike, and the directory may have another
name. A path can be followed on a stack of the names below the directory then (`Path.descend`), on
which normalization pushes the same names wherever the directory stands (`foldl_push_of_descend`).

* `Search.Follows.moved` and `Search.collect_moved`: a search finds the counterparts.
* `Relink.copyEach_moved`: copies have the same bytes.
-/

namespace Folio

open FileTree

/-! ## References that stay below a directory -/

namespace Path

/-- Follows one more name on a stack of names below a directory, which is not to be left. -/
def descend (stack : List Name) (n : Name) : Option (List Name) :=
  if n = .up then stack.tail? else some (n :: stack)

theorem push_of_descend {stack next : List Name} {n : Name} (hplain : Name.up ∉ stack)
    (h : descend stack n = some next) :
    Name.up ∉ next ∧ ∀ base, push true (stack ++ base) n = next ++ base := by
  rw [descend] at h
  split at h
  · next hn =>
      cases stack with
      | nil => exact absurd h (by simp)
      | cons top stack =>
          obtain rfl := Option.some.inj h
          rw [List.mem_cons, not_or] at hplain
          refine ⟨hplain.2, fun base => ?_⟩
          rw [hn, List.cons_append, push_up_cons (Ne.symm hplain.1)]
  · next hn =>
      obtain rfl := Option.some.inj h
      exact ⟨by simp [hplain, Ne.symm hn], fun base => push_of_ne_up hn⟩

/-- **Names that stay below a directory** are pushed in the same way wherever it stands. -/
theorem foldl_push_of_descend {stack last names : List Name} (hplain : Name.up ∉ stack)
    (h : names.foldlM descend stack = some last) :
    Name.up ∉ last ∧ ∀ base, names.foldl (push true) (stack ++ base) = last ++ base := by
  induction names generalizing stack with
  | nil =>
      obtain rfl := Option.some.inj h
      exact ⟨hplain, fun _ => rfl⟩
  | cons n names ih =>
      rw [List.foldlM_cons] at h
      obtain ⟨next, hnext, hrest⟩ := Option.bind_eq_some_iff.1 h
      obtain ⟨hplain', hpush⟩ := push_of_descend hplain hnext
      obtain ⟨hlast, hfold⟩ := ih hplain' hrest
      exact ⟨hlast, fun base => by rw [List.foldl_cons, hpush, hfold]⟩

/-- The path leads to some place below the directory. -/
def Beneath (root p : Path) : Prop := ∃ names, names ≠ [] ∧ Name.up ∉ names ∧ p = root.under names

theorem Beneath.inside {root p : Path} (h : Beneath root p) : Inside root p := by
  obtain ⟨names, -, hplain, rfl⟩ := h
  exact ⟨names, hplain, rfl⟩

end Path

/-- The reference in the document is a relative path that leads to the directory or below it, and
does not leave it on the way. -/
def Document.StaysBelow (root file : Path) (reference : Text) : Prop :=
  (Path.ofText reference).isAbsolute = false ∧
    ((Path.below? root file.parent).bind fun names =>
      (Path.ofText reference).names.foldlM Path.descend names.reverse).isSome = true

instance (root file : Path) (reference : Text) : Decidable (Document.StaysBelow root file reference) :=
  inferInstanceAs (Decidable (_ ∧ _))

/-- **Such a reference denotes counterparts** in counterparts of the document. -/
theorem Document.refer_under {root : Path} {names : List Name} {reference : Text} (hne : names ≠ [])
    (hplain : Name.up ∉ names) (h : StaysBelow root (root.under names) reference) :
    ∃ names', Name.up ∉ names' ∧ ∀ root' : Path, root'.Normal →
      refer (root'.under names) reference = root'.under names' := by
  obtain ⟨hrelative, hstays⟩ := h
  have hbelow : Path.below? root (root.under names).parent = some names.dropLast := by
    rw [Path.parent_under hne]
    simp [Path.below?, Path.under]
  rw [hbelow, Option.bind_some, Option.isSome_iff_exists] at hstays
  obtain ⟨last, hlast⟩ := hstays
  have hplain' : Name.up ∉ names.dropLast := fun hup => hplain (List.dropLast_subset _ hup)
  obtain ⟨hplain'', hfold⟩ := Path.foldl_push_of_descend (by simpa using hplain') hlast
  refine ⟨last.reverse, by simpa using hplain'', fun root' hroot' => ?_⟩
  have hstack : (root'.under names.dropLast).names.foldl (Path.push true) [] =
      names.dropLast.reverse ++ root'.names.reverse := by
    rw [Path.foldl_push_plain (Path.under_normal hroot' hplain').plain, Path.under,
      List.reverse_append, List.append_nil]
  rw [refer, Path.parent_under hne, Path.join, if_neg (by simp [hrelative]),
    Path.normalize_append (Path.under_normal hroot' hplain').absolute, hstack, hfold,
    List.reverse_append, List.reverse_reverse]
  rfl

/-! ## Counterparts of what is found -/

mutual

/-- The page with another path for each document. -/
def Page.map (f : Path → Path) : Page → Page
  | .node p cs => .node (f p) (Page.mapAll f cs)

/-- Some pages with another path for each document. -/
def Page.mapAll (f : Path → Path) : List Page → List Page
  | [] => []
  | c :: cs => Page.map f c :: Page.mapAll f cs

end

theorem Page.map_node (f : Path → Path) (p : Path) (cs : List Page) :
    Page.map f (.node p cs) = .node (f p) (cs.map (Page.map f)) := by
  have hall : ∀ cs, Page.mapAll f cs = cs.map (Page.map f) := by
    intro cs
    induction cs with
    | nil => rfl
    | cons c cs ih => rw [Page.mapAll, ih, List.map_cons]
  rw [Page.map, hall]

/-- The event with other paths in it. The texts of references stay. -/
def Event.map (f : Path → Path) : Event → Event
  | .listed directory => .listed (f directory)
  | .entered file target => .entered (f file) (f target)
  | .promoted path actual result file target =>
      .promoted path (f actual) (f result) (f file) (f target)
  | .kept path actual file target => .kept path (f actual) (f file) (f target)
  | .revisited path actual file target => .revisited path (f actual) (f file) (f target)
  | .copied file target => .copied (f file) (f target)
  | .repointed path actual result file target kind =>
      .repointed path (f actual) (f result) (f file) (f target) kind
  | .missing path actual file target kind => .missing path (f actual) (f file) (f target) kind

/-- The document and the text of the reference of which an event tells. -/
def Event.reference? : Event → Option (Path × Text)
  | .promoted path _ _ file _ | .kept path _ file _ | .revisited path _ file _
  | .repointed path _ _ file _ _ | .missing path _ file _ _ => some (file, path)
  | .listed _ | .entered _ _ | .copied _ _ => none

/-- The reference of which an event tells, if any, stays below the directory. -/
def Event.StaysBelow (root : Path) (e : Event) : Prop :=
  ∀ r ∈ e.reference?, Document.StaysBelow root r.1 r.2

instance (root : Path) (e : Event) : Decidable (e.StaysBelow root) :=
  inferInstanceAs (Decidable (∀ r ∈ e.reference?, Document.StaysBelow root r.1 r.2))

namespace Entries

variable {α β γ δ : Type} [DecidableEq α] [DecidableEq γ] {f : α → γ} {g : β → δ} {k : α}
  {es : List (α × β)}

theorem get?_map (hinj : ∀ e ∈ es, f e.1 = f k → e.1 = k) :
    get? (f k) (es.map (Prod.map f g)) = (get? k es).map g := by
  induction es with
  | nil => rfl
  | cons e es ih =>
      rw [List.forall_mem_cons] at hinj
      rw [List.map_cons, get?, get?, Prod.map_fst, ih hinj.2]
      by_cases hk : e.1 = k
      · rw [if_pos (congrArg f hk), if_pos hk]
        rfl
      · rw [if_neg fun heq => hk (hinj.1 heq), if_neg hk]

theorem insert_map (hinj : ∀ e ∈ es, f e.1 = f k → e.1 = k) (v : β) :
    insert (f k) (g v) (es.map (Prod.map f g)) = (insert k v es).map (Prod.map f g) := by
  induction es with
  | nil => rfl
  | cons e es ih =>
      rw [List.forall_mem_cons] at hinj
      rw [List.map_cons, insert, insert, Prod.map_fst, ih hinj.2]
      by_cases hk : e.1 = k
      · rw [if_pos (congrArg f hk), if_pos hk]
        rfl
      · rw [if_neg fun heq => hk (hinj.1 heq), if_neg hk]
        rfl

end Entries

namespace Targets

variable {root root' : Path} {m μ : Targets} {file target : Path}

/-- The second targets have the counterparts of the documents, with the counterparts of their
places. -/
structure Moved (root root' : Path) (m μ : Targets) : Prop where
  entries : μ.entries = m.entries.map (Prod.map (root.move root') (root.move root'))
  inside : ∀ p ∈ m.keys, root.Inside p

theorem Moved.inj (h : Moved root root' m μ) (hroot' : root'.Normal) (hfile : root.Inside file) :
    ∀ e ∈ m.entries, root.move root' e.1 = root.move root' file → e.1 = file :=
  fun e he heq => (h.inside e.1 (List.mem_map_of_mem he)).move_inj hfile hroot' heq

theorem Moved.get? (h : Moved root root' m μ) (hroot' : root'.Normal) (hfile : root.Inside file) :
    OrderedMap.get? μ (root.move root' file) = (OrderedMap.get? m file).map (root.move root') := by
  rw [OrderedMap.get?, h.entries, Entries.get?_map (h.inj hroot' hfile), OrderedMap.get?]

theorem Moved.insert (h : Moved root root' m μ) (hroot' : root'.Normal) (hfile : root.Inside file)
    (target : Path) : Moved root root' (OrderedMap.insert m file target)
      (OrderedMap.insert μ (root.move root' file) (root.move root' target)) := by
  refine ⟨?_, fun p hp => ?_⟩
  · simp only [OrderedMap.insert, h.entries]
    exact Entries.insert_map (h.inj hroot' hfile) target
  · rw [OrderedMap.keys_insert] at hp
    split at hp
    · exact h.inside p hp
    · rcases List.mem_append.1 hp with hp | hp
      · exact h.inside p hp
      · rwa [List.mem_singleton.1 hp]

end Targets

/-! ## Directives -/

/-- The directive of a document that includes another one by a path with some further text. -/
def Directive.of (base file target : Path) (q : Text × Text) : Directive :=
  ⟨q.1, q.2, Document.refer file q.1,
    Document.targetOf base file target (Document.refer file q.1), file, target⟩

/-- The directive of the document with these names below `home`, which has its place below `dest`.
-/
def Directive.among (base root : Path) (home dest names : List Name) (q : Text × Text) : Directive :=
  .of base (root.under (home ++ names)) (root.under (dest ++ names)) q

namespace Search

/-- The paths of the including lines of a document, each with the further text. -/
def inclusions (s : Search) (file : Path) : Except BuildError (List (Text × Text)) :=
  (Document.read s.tree file s.encoding).map fun lines =>
    lines.filterMap fun line =>
      (Reference.inclusion.grammar.match? (s.attributes.substitute line)).map fun m =>
        (Text.trim m.path, m.trailing)

theorem directives_eq_map (s : Search) (file target : Path) :
    s.directives file target =
      (s.inclusions file).map fun qs => qs.map (.of s.tree.cwdPath file target) := by
  rw [directives, inclusions]
  cases Document.read s.tree file s.encoding with
  | error e => rfl
  | ok lines =>
      simp only [Except.map, List.map_filterMap, Option.map_map]
      rfl

end Search

section Directives

variable {root root' : Path} {home dest names : List Name} {t u : FileTree}

/-- The second directive is the first one in the counterpart of its document: the documents and
their copies are counterparts, the path and the further text are the same. As long as it includes
something below the directory `home`, the places are counterparts too. -/
structure Directive.Moved (root root' : Path) (home dest : List Name) (d d' : Directive) : Prop where
  actual : d'.actual = root.move root' d.actual
  inside : root.Inside d.actual
  path : d'.path = d.path
  further : d'.further = d.further
  file : d'.file = root.move root' d.file
  target : d'.target = root.move root' d.target
  below : (root.under home).Below d.actual → ∃ names, names ≠ [] ∧ Name.up ∉ home ++ names ∧
    Name.up ∉ dest ++ names ∧ d.actual = root.under (home ++ names) ∧
    d.result = root.under (dest ++ names) ∧ d'.actual = root'.under (home ++ names) ∧
    d'.result = root'.under (dest ++ names)

theorem Directive.among_moved (hroot : root.Normal) (hroot' : root'.Normal) (hne : names ≠ [])
    (hhome : Name.up ∉ home ++ names) (hdest : Name.up ∉ dest ++ names) {q : Text × Text}
    (hstays : Document.StaysBelow root (root.under (home ++ names)) q.1) (base base' : Path) :
    Directive.Moved root root' home dest (.among base root home dest names q)
      (.among base' root' home dest names q) := by
  obtain ⟨there, hthere, hrefer⟩ := Document.refer_under (by simp [hne]) hhome hstays
  refine ⟨?_, ⟨there, hthere, hrefer root hroot⟩, rfl, rfl, (Path.move_under hroot' hhome).symm,
    (Path.move_under hroot' hdest).symm, ?_⟩
  · rw [among, among, of, of, hrefer root hroot, hrefer root' hroot', Path.move_under hroot' hthere]
  · rintro ⟨hunder, hother⟩
    simp only [among, of, hrefer root hroot, hrefer root' hroot'] at hunder hother ⊢
    obtain ⟨below, rfl⟩ := (List.prefix_append_right_inj root.names).1 hunder
    have hne' : below ≠ [] := by
      rintro rfl
      exact hother (by rw [List.append_nil])
    have hdest₀ : Name.up ∉ dest := fun hup => hdest (List.mem_append_left _ hup)
    have hdest' : Name.up ∉ dest ++ below := by
      rw [List.mem_append, not_or] at hthere ⊢
      exact ⟨hdest₀, hthere.2⟩
    -- The offset from the document is the same below both directories.
    have htarget : ∀ {root : Path}, root.Normal → ∀ base, Document.targetOf base
        (root.under (home ++ names)) (root.under (dest ++ names)) (root.under (home ++ below)) =
          root.under (dest ++ below) := by
      intro root hroot base
      have hfile : (root.under (home ++ names)).names = (root.under home).names ++ names := by
        simp [Path.under]
      have hother : (root.under (home ++ below)).names = (root.under home).names ++ below := by
        simp [Path.under]
      rw [← Path.under_under root dest, ← Path.under_under root dest]
      exact Path.targetOf_below (Path.under_normal hroot hhome) (Path.under_normal hroot hthere)
        (Path.under_normal hroot hdest₀) hfile hother hne
    exact ⟨below, hne', hthere, hdest', rfl, htarget hroot base, rfl, htarget hroot' base'⟩

/-- The first of the directives of a document has its counterpart, in front of those of the others.
-/
theorem Directive.cons_moved (hroot : root.Normal) (hroot' : root'.Normal) (hne : names ≠ [])
    (hhome : Name.up ∉ home ++ names) (hdest : Name.up ∉ dest ++ names) {base : Path} {d : Directive}
    {ds : List Directive} {qs : List (Text × Text)}
    (hds : d :: ds = qs.map (.among base root home dest names))
    (hstays : Document.StaysBelow root d.file d.path) (base' : Path) :
    ∃ (d' : Directive) (qs' : List (Text × Text)), qs.map (.among base' root' home dest names) =
        d' :: qs'.map (.among base' root' home dest names) ∧
      ds = qs'.map (.among base root home dest names) ∧
      Directive.Moved root root' home dest d d' := by
  obtain ⟨q, qs, rfl, rfl, rfl⟩ := List.map_eq_cons_iff.1 hds.symm
  exact ⟨_, qs, rfl, rfl, among_moved hroot hroot' hne hhome hdest hstays base base'⟩

/-- **The decision about a directive** is the same for its counterpart. -/
theorem Directive.promotes?_moved {d d' : Directive} (h : FileTree.Twin root root' t u)
    (hd : Directive.Moved root root' home dest d d') {a : Bool} (ha : d.promotes? t = .ok a)
    (hshort : d.asks = true → (root.move root' d.actual).Short) : d'.promotes? u = .ok a := by
  obtain ⟨there, hthere, hactual⟩ := hd.inside
  rw [promotes?] at ha ⊢
  rw [hd.further, hd.actual]
  rw [asks, Bool.and_eq_true, Bool.not_eq_true'] at hshort
  split at ha
  · next hmarked => rw [if_pos hmarked, ha]
  · next hmarked =>
      rw [if_neg hmarked]
      rw [hactual, Path.move_under h.normal' hthere] at hshort ⊢
      rw [hactual] at ha
      exact h.isPage?_eq hthere ha fun hname => hshort ⟨by simpa using hmarked, hname⟩

end Directives

/-! ## Searches -/

namespace Search

variable {root root' : Path} {home dest names : List Name} {s s' : Search} {m m' μ : Targets}
  {es : List Event}

/-- Both searches look for the same in trees that hold the same files below the directories. -/
structure Twin (root root' : Path) (s s' : Search) : Prop where
  tree : FileTree.Twin root root' s.tree s'.tree
  attributes : s'.attributes = s.attributes
  encoding : s'.encoding = s.encoding

theorem Twin.inclusions_eq (h : s.Twin root root' s') (hplain : Name.up ∉ names)
    {qs : List (Text × Text)} (hqs : s.inclusions (root.under names) = .ok qs)
    (hshort : (root'.under names).Short) : s'.inclusions (root'.under names) = .ok qs := by
  rw [inclusions] at hqs ⊢
  obtain ⟨lines, hread, rfl⟩ := exists_of_map_eq_ok hqs
  rw [h.encoding, h.attributes, h.tree.read_eq hplain hread hshort]
  rfl

/-- A search with these targets can be done below the second directory: its documents lie below
`home`, and the paths for which it asks have counterparts that are not too long. -/
structure Movable (root root' : Path) (home : List Name) (s : Search) (m : Targets) : Prop where
  below : ∀ file ∈ m.keys, (root.under home).Below file
  short : ∀ file target ds, m.get? file = some target → s.directives file target = .ok ds →
    ∀ d ∈ ds, d.asks = true → (root.move root' d.actual).Short

theorem Movable.mono (h : Movable root root' home s m') (hsub : ∀ file target,
    m.get? file = some target → m'.get? file = some target) : Movable root root' home s m := by
  refine ⟨fun file hfile => ?_, fun file target ds hmaps => h.short file target ds (hsub _ _ hmaps)⟩
  obtain ⟨target, htarget⟩ := Option.isSome_iff_exists.1 (OrderedMap.get?_isSome.2 hfile)
  exact h.below file (mem_keys_of_get? (hsub file target htarget))

theorem asks_of_promotes? {d : Directive} {t : FileTree} (h : d.promotes? t = .ok true) :
    d.asks = true := by
  by_contra hasks
  rw [Directive.promotes?_of_not_asks (by simpa using hasks)] at h
  exact absurd h (by simp)

theorem Twin.directives_eq (h : s.Twin root root' s') (hhome : Name.up ∉ home ++ names)
    {ds : List Directive} (hshort : (root'.under (home ++ names)).Short)
    (hds : s.directives (root.under (home ++ names)) (root.under (dest ++ names)) = .ok ds) :
    ∃ qs : List (Text × Text), ds = qs.map (.among s.tree.cwdPath root home dest names) ∧
      s'.directives (root'.under (home ++ names)) (root'.under (dest ++ names)) =
        .ok (qs.map (.among s'.tree.cwdPath root' home dest names)) := by
  rw [directives_eq_map] at hds
  obtain ⟨qs, hqs, rfl⟩ := exists_of_map_eq_ok hds
  exact ⟨qs, rfl, by rw [directives_eq_map, h.inclusions_eq hhome hqs hshort]; rfl⟩

/-- A document below `home` that is promoted has its place, and its own directives can be followed
as well. -/
theorem Twin.entered (hs : s.Twin root root' s') {d d' : Directive}
    (hd : Directive.Moved root root' home dest d d') (hbelow : (root.under home).Below d.actual)
    (hshort : (root.move root' d.actual).Short) {inner : List Directive}
    (hdir : s.directives d.actual d.result = .ok inner) :
    ∃ (names : List Name) (qs : List (Text × Text)), names ≠ [] ∧ Name.up ∉ home ++ names ∧
      Name.up ∉ dest ++ names ∧ inner = qs.map (.among s.tree.cwdPath root home dest names) ∧
      s'.directives d'.actual d'.result =
        .ok (qs.map (.among s'.tree.cwdPath root' home dest names)) ∧
      d'.result = root.move root' d.result := by
  obtain ⟨names, hne, hhome, hdest, hactual, hresult, hactual', hresult'⟩ := hd.below hbelow
  rw [← hd.actual, hactual'] at hshort
  rw [hactual, hresult] at hdir
  obtain ⟨qs, rfl, hdir'⟩ := hs.directives_eq hhome hshort hdir
  rw [← hactual', ← hresult'] at hdir'
  refine ⟨names, qs, hne, hhome, hdest, rfl, hdir', ?_⟩
  rw [hresult, hresult', Path.move_under hs.tree.normal' hdest]

/-- **Following directives** below the second directory finds the counterparts. The document of the
directives changes in the induction, so these are given by the texts of their lines. -/
theorem Follows.moved (hs : s.Twin root root' s') {ds : List Directive} {ts : List Outline}
    (h : s.Follows m ds m' es ts) (hne : names ≠ []) (hhome : Name.up ∉ home ++ names)
    (hdest : Name.up ∉ dest ++ names) {qs : List (Text × Text)}
    (hds : ds = qs.map (.among s.tree.cwdPath root home dest names))
    (hμ : Targets.Moved root root' m μ) (hmovable : Movable root root' home s m')
    (hshort : ∀ d ∈ ds, d.asks = true → (root.move root' d.actual).Short)
    (hstays : ∀ e ∈ es, e.StaysBelow root) :
    ∃ μ' ts', Targets.Moved root root' m' μ' ∧
      s'.Follows μ (qs.map (.among s'.tree.cwdPath root' home dest names)) μ'
        (es.map (.map (root.move root'))) ts' ∧
      ts'.map Outline.page = ts.map fun t => t.page.map (root.move root') := by
  have hroot := hs.tree.normal
  have hroot' := hs.tree.normal'
  induction h generalizing names qs μ with
  | nil =>
      obtain rfl := List.map_eq_nil_iff.1 hds.symm
      exact ⟨μ, [], hμ, .nil, rfl⟩
  | @kept m m' d ds es ts hp hf ih =>
      rw [List.forall_mem_cons] at hshort hstays
      obtain ⟨d', qs, hqs, rfl, hd⟩ :=
        Directive.cons_moved hroot hroot' hne hhome hdest hds (hstays.1 _ rfl) s'.tree.cwdPath
      have hp' := Directive.promotes?_moved hs.tree hd hp hshort.1
      obtain ⟨μ', ts', hμ', hf', hpages⟩ := ih hne hhome hdest rfl hμ hmovable hshort.2 hstays.2
      have hfollows := Follows.kept hp' hf'
      rw [hd.path, hd.actual, hd.file, hd.target, ← hqs] at hfollows
      exact ⟨μ', ts', hμ', hfollows, hpages⟩
  | @revisited m m' d ds es ts there hp hm hf ih =>
      rw [List.forall_mem_cons] at hshort hstays
      obtain ⟨d', qs, hqs, rfl, hd⟩ :=
        Directive.cons_moved hroot hroot' hne hhome hdest hds (hstays.1 _ rfl) s'.tree.cwdPath
      have hp' := Directive.promotes?_moved hs.tree hd hp hshort.1
      obtain ⟨μ', ts', hμ', hf', hpages⟩ := ih hne hhome hdest rfl hμ hmovable hshort.2 hstays.2
      have hm' := hμ.get? hroot' hd.inside
      rw [hm, Option.map_some, ← hd.actual] at hm'
      have hfollows := Follows.revisited hp' hm' hf'
      rw [hd.path, hd.actual, hd.file, hd.target, ← hqs] at hfollows
      refine ⟨μ', _, hμ', hfollows, ?_⟩
      rw [List.map_cons, List.map_cons, hpages, Outline.page_node, Outline.page_node, Page.map_node]
      rfl
  | @promoted m m₁ m₂ d ds inner es₁ es₂ ts₁ ts₂ hp hnone hdir hf₁ hf₂ ih₁ ih₂ =>
      rw [List.forall_mem_cons] at hshort
      simp only [List.forall_mem_cons, List.forall_mem_append] at hstays
      obtain ⟨d', qs, hqs, rfl, hd⟩ :=
        Directive.cons_moved hroot hroot' hne hhome hdest hds (hstays.1 _ rfl) s'.tree.cwdPath
      have hp' := Directive.promotes?_moved hs.tree hd hp hshort.1
      have hnone' := hμ.get? hroot' hd.inside
      rw [hnone, Option.map_none, ← hd.actual] at hnone'
      have hin : (m.insert d.actual d.result).get? d.actual = some d.result := by
        rw [OrderedMap.get?_insert, if_pos rfl]
      have hmaps₁ : ∀ file target, m₁.get? file = some target → m₂.get? file = some target :=
        fun file target => hf₂.get?_mono
      have hmaps := hmaps₁ _ _ (hf₁.get?_mono hin)
      obtain ⟨below, inner', hne', hhome', hdest', rfl, hdir', hresult⟩ := hs.entered hd
        (hmovable.below _ (mem_keys_of_get? hmaps)) (hshort.1 (asks_of_promotes? hp)) hdir
      have hμ₀ := hμ.insert hroot' hd.inside d.result
      rw [← hd.actual, ← hresult] at hμ₀
      obtain ⟨μ₁, ts₁', hμ₁, hf₁', hpages₁⟩ := ih₁ hne' hhome' hdest' rfl hμ₀
        (hmovable.mono hmaps₁) (hmovable.short _ _ _ hmaps hdir) hstays.2.2.1
      obtain ⟨μ₂, ts₂', hμ₂, hf₂', hpages₂⟩ :=
        ih₂ hne hhome hdest rfl hμ₁ hmovable hshort.2 hstays.2.2.2
      have hfollows := Follows.promoted hp' hnone' hdir' hf₁' hf₂'
      rw [hd.path, hd.actual, hresult, hd.file, hd.target, ← List.map_append, ← hqs] at hfollows
      refine ⟨μ₂, _, hμ₂, hfollows, ?_⟩
      rw [List.map_cons, List.map_cons, hpages₂, Outline.page_node, Outline.page_node, Page.map_node,
        hpages₁, List.map_map]
      rfl

/-- **A search** below the second directory finds the counterparts, and the counterpart of the page.
-/
theorem collect_moved (hs : s.Twin root root' s') (hne : names ≠ []) (hhome : Name.up ∉ home ++ names)
    (hdest : Name.up ∉ dest ++ names) {found : Finding} {page : Page}
    (hfound : s.collect (root.under (home ++ names)) (root.under (dest ++ names)) .empty = found)
    (hpage : found.result = .ok page) (hmovable : Movable root root' home s found.targets)
    (hshort : (root'.under (home ++ names)).Short) (hstays : ∀ e ∈ found.events, e.StaysBelow root) :
    ∃ μ, Targets.Moved root root' found.targets μ ∧
      s'.collect (root'.under (home ++ names)) (root'.under (dest ++ names)) .empty =
        ⟨μ, found.events.map (.map (root.move root')), .ok (page.map (root.move root'))⟩ := by
  have hroot' := hs.tree.normal'
  have hpage' := hpage
  rw [← hfound] at hpage'
  obtain ⟨ds, m', es, ts, hdir, hf, hcollect⟩ :=
    collect_follows (OrderedMap.get?_empty (root.under (home ++ names))) hpage'
  obtain rfl := hfound.symm.trans hcollect
  obtain rfl := Except.ok.inj hpage
  obtain ⟨qs, hds, hdir'⟩ := hs.directives_eq hhome hshort hdir
  have hempty : Targets.Moved root root' .empty .empty := ⟨rfl, by simp [OrderedMap.keys, OrderedMap.empty]⟩
  have hμ₀ := hempty.insert hroot' ⟨_, hhome, rfl⟩ (root.under (dest ++ names))
  rw [Path.move_under hroot' hhome, Path.move_under hroot' hdest] at hμ₀
  have hin : (OrderedMap.insert .empty (root.under (home ++ names)) (root.under (dest ++ names))).get?
      (root.under (home ++ names)) = some (root.under (dest ++ names)) := by
    rw [OrderedMap.get?_insert, if_pos rfl]
  obtain ⟨μ, ts', hμ, hf', hpages⟩ := hf.moved hs hne hhome hdest hds hμ₀ hmovable
    (hmovable.short _ _ _ (hf.get?_mono hin) hdir) fun e he => hstays e (List.mem_cons_of_mem _ he)
  refine ⟨μ, hμ, ?_⟩
  rw [collect_of_follows hdir' hf', List.map_cons, Event.map, Path.move_under hroot' hhome,
    Path.move_under hroot' hdest, Outline.page_node, Outline.page_node, Page.map_node, hpages,
    List.map_map, Path.move_under hroot' hdest]
  rfl

end Search

/-! ## Copies -/

namespace Relink

variable {root root' : Path} {t u : FileTree} {how : Copying} {targets μ : Targets} {skip : List Path}
  {file target : Path} {docs : List (Path × Path)}

/-- What a reference denotes is the counterpart of what it denotes in the document. -/
theorem refer_moved (hroot : root.Normal) (hroot' : root'.Normal) (hfile : root.Beneath file)
    {reference : Text} (hstays : Document.StaysBelow root file reference) :
    root.Inside (Document.refer file reference) ∧
      Document.refer (root.move root' file) reference =
        root.move root' (Document.refer file reference) := by
  obtain ⟨names, hne, hplain, rfl⟩ := hfile
  obtain ⟨there, hthere, hrefer⟩ := Document.refer_under hne hplain hstays
  rw [Path.move_under hroot' hplain, hrefer root hroot, hrefer root' hroot',
    Path.move_under hroot' hthere]
  exact ⟨⟨there, hthere, rfl⟩, rfl⟩

/-- The way from a copy to some place is the way from its counterpart to that of the place. -/
theorem relativeTo_moved (hroot : root.Normal) (hroot' : root'.Normal) (htarget : root.Beneath target)
    {place : Path} (hplace : root.Inside place) (base base' : Path) :
    Path.relativeTo base' (root.move root' target).parent (root.move root' place) =
        Path.relativeTo base target.parent place ∧
      root.move root' (Path.relativeTo base target.parent place) =
        Path.relativeTo base target.parent place := by
  obtain ⟨names, hne, hplain, rfl⟩ := htarget
  obtain ⟨names', hplain', rfl⟩ := hplace
  have hparent : Name.up ∉ names.dropLast := fun hup => hplain (List.dropLast_subset _ hup)
  rw [Path.move_under hroot' hplain, Path.move_under hroot' hplain', Path.parent_under hne,
    Path.parent_under hne, Path.relativeTo_under base' hroot' hparent hplain',
    Path.relativeTo_under base hroot hparent hplain']
  exact ⟨rfl, Path.move_here hroot.absolute _⟩

theorem exists?_moved (h : Twin root root' t u) {p : Path} (hp : root.Inside p) {found : Bool}
    (hfound : t.exists? p = .ok found) (hshort : (root.move root' p).Short) :
    u.exists? (root.move root' p) = .ok found := by
  obtain ⟨names, hplain, rfl⟩ := hp
  rw [Path.move_under h.normal' hplain] at hshort ⊢
  exact h.map_status?_eq hplain hfound hshort

/-- **A match has the same text** in the counterpart of a copy, and the counterpart of its event. -/
theorem match?_moved (h : Twin root root' t u) (hμ : Targets.Moved root root' targets μ)
    (hplaces : targets.All fun _ place => root.Inside place) (hfile : root.Beneath file)
    (htarget : root.Beneath target) {kind : Reference} {m : Match} {e : Event} {x : Text}
    (hm : match? ⟨t, targets, file, target⟩ kind m = .ok (e, x)) (hstays : e.StaysBelow root)
    (hshort : ∀ p, e.looked? = some p → (root.move root' p).Short) :
    match? ⟨u, μ, root.move root' file, root.move root' target⟩ kind m =
      .ok (e.map (root.move root'), x) := by
  rw [match?] at hm ⊢
  simp only at hm ⊢
  cases hex : t.exists? (Document.refer file (Text.trim m.path)) with
  | error f =>
      rw [hex] at hm
      exact absurd hm (by simp)
  | ok found =>
      rw [hex] at hm
      cases found with
      | false =>
          obtain ⟨rfl, rfl⟩ := Prod.mk.inj (Except.ok.inj hm)
          obtain ⟨hinside, hrefer⟩ := refer_moved h.normal h.normal' hfile (hstays _ rfl)
          rw [hrefer, exists?_moved h hinside hex (hshort _ rfl)]
          rfl
      | true =>
          obtain ⟨rfl, rfl⟩ := Prod.mk.inj (Except.ok.inj hm)
          obtain ⟨hinside, hrefer⟩ := refer_moved h.normal h.normal' hfile (hstays _ rfl)
          simp only at hinside hrefer
          have hplace : root.Inside ((targets.get? (Document.refer file (Text.trim m.path))).getD
              (Document.refer file (Text.trim m.path))) := by
            cases hthere : targets.get? (Document.refer file (Text.trim m.path)) with
            | none => exact hinside
            | some there => exact hplaces _ _ hthere
          obtain ⟨hway, hresult⟩ := relativeTo_moved h.normal h.normal' htarget hplace t.cwdPath
            u.cwdPath
          rw [hrefer, exists?_moved h hinside hex (hshort _ rfl), Event.map, hresult]
          simp only [hμ.get? h.normal' hinside, Option.getD_map, hway, Option.isSome_map]

/-- **A copy is made** below the second directory, with the same bytes. -/
theorem copy_moved (h : Twin root root' t u) (hμ : Targets.Moved root root' targets μ)
    (hplaces : targets.All fun _ place => root.Inside place) (hfile : root.Beneath file)
    (htarget : root.Beneath target) (hok : (copy how targets file target t).result = .ok ())
    (hstays : ∀ e ∈ (copy how targets file target t).events, e.StaysBelow root)
    (hshort : ∀ e ∈ (copy how targets file target t).events, ∀ p, e.looked? = some p →
      (root.move root' p).Short)
    (hread : (root.move root' file).Short) (hwrite : (root.move root' target).Short) :
    ∃ u', copy how μ (root.move root' file) (root.move root' target) u =
        ⟨u', (copy how targets file target t).events.map (.map (root.move root')), .ok ()⟩ ∧
      Twin root root' (copy how targets file target t).tree u' := by
  have hnormal := htarget.inside.normal h.normal
  obtain ⟨ls, es, out, bytes, hls, hlines, hfits, hbytes, hevents⟩ :=
    copy_eq_ok h.linkFree hnormal hok
  obtain ⟨_, _, -, -, hheld⟩ := copy_holds h.linkFree hnormal hok
  have hroom : Room t target := (copy_retains how targets file target t).toKeeps.room hheld
  obtain ⟨t', hcopy, hentries⟩ := copy_made h.linkFree hnormal hfits hroom hls hlines hbytes
  rw [hevents] at hstays hshort
  have hmatch : Corresponds (fun e e' => e' = e.map (root.move root')) ⟨t, targets, file, target⟩
      ⟨u, μ, root.move root' file, root.move root' target⟩ es := fun kind m e x hm he =>
    ⟨_, match?_moved h hμ hplaces hfile htarget hm (hstays e (List.mem_cons_of_mem _ he))
      (hshort e (List.mem_cons_of_mem _ he)), rfl⟩
  obtain ⟨es', hlines', hrel⟩ := lines_corresponds hlines hmatch
  have hes : es.map (Event.map (root.move root')) = es' := by
    have heq := List.forall₂_map_left_iff.2 (hrel.imp fun e e' he => he.symm)
    rwa [List.forall₂_eq_eq_eq] at heq
  obtain ⟨names, -, hplain, rfl⟩ := htarget
  obtain ⟨names', -, hplain', rfl⟩ := hfile
  rw [Path.move_under h.normal' hplain'] at hread hlines' ⊢
  rw [Path.move_under h.normal' hplain] at hwrite hlines' ⊢
  obtain ⟨u', hcopy', hentries'⟩ := copy_made h.linkFree' (Path.under_normal h.normal' hplain)
    (h.nameable.under h.symm.nameable hfits hwrite) (h.room hroom) (h.read_eq hplain' hls hread)
    hlines' hbytes
  refine ⟨u', ?_, ?_⟩
  · rw [hcopy', hevents, List.map_cons, hes, Event.map, Path.move_under h.normal' hplain,
      Path.move_under h.normal' hplain']
  · rw [hcopy]
    exact h.of_wrote hroom hentries hentries'

/-- **Copies are made** below the second directory, with the same bytes. -/
theorem copyEach_moved (h : Twin root root' t u) (hμ : Targets.Moved root root' targets μ)
    (hplaces : targets.All fun _ place => root.Inside place)
    (hskip : ∀ p ∈ skip, root.Inside p) (hdocs : ∀ e ∈ docs, root.Beneath e.1 ∧ root.Beneath e.2)
    {new : List Path} (hok : (copyEach how targets skip docs t).result = .ok new)
    (hstays : ∀ e ∈ (copyEach how targets skip docs t).events, e.StaysBelow root)
    (hshort : ∀ e ∈ (copyEach how targets skip docs t).events, ∀ p, e.looked? = some p →
      (root.move root' p).Short)
    (hread : ∀ e ∈ docs, (root.move root' e.1).Short) (hwrite : ∀ p ∈ new, (root.move root' p).Short) :
    ∃ u', copyEach how μ (skip.map (root.move root'))
        (docs.map (Prod.map (root.move root') (root.move root'))) u =
        ⟨u', (copyEach how targets skip docs t).events.map (.map (root.move root')),
          .ok (new.map (root.move root'))⟩ ∧
      Twin root root' (copyEach how targets skip docs t).tree u' := by
  induction docs generalizing t u new with
  | nil =>
      obtain rfl := Except.ok.inj hok
      exact ⟨u, rfl, h⟩
  | cons e docs ih =>
      obtain ⟨file, target⟩ := e
      rw [List.forall_mem_cons] at hdocs hread
      have hskipped : root.move root' target ∈ skip.map (root.move root') ↔ target ∈ skip := by
        refine ⟨fun hmem => ?_, List.mem_map_of_mem⟩
        obtain ⟨p, hp, heq⟩ := List.mem_map.1 hmem
        obtain rfl := (hskip p hp).move_inj hdocs.1.2.inside h.normal' heq
        exact hp
      by_cases hin : target ∈ skip
      · rw [copyEach_cons_of_mem hin] at hok hstays hshort ⊢
        rw [List.map_cons, Prod.map, copyEach_cons_of_mem (hskipped.2 hin)]
        exact ih h hdocs.2 hok hstays hshort hread.2 hwrite
      · obtain ⟨hcopy, rest, hrest, rfl⟩ := copyEach_cons_eq_ok hin hok
        rw [List.forall_mem_cons] at hwrite
        rw [copyEach_cons_of_made hin hcopy] at hstays hshort ⊢
        simp only [List.forall_mem_append] at hstays hshort
        obtain ⟨u', hcopy', h'⟩ := copy_moved h hμ hplaces hdocs.1.1 hdocs.1.2 hcopy hstays.1 hshort.1
          hread.1 hwrite.1
        obtain ⟨u'', hrest', h''⟩ := ih h' hdocs.2 hrest hstays.2 hshort.2 hread.2 hwrite.2
        refine ⟨u'', ?_, h''⟩
        have hin' : root.move root' target ∉ skip.map (root.move root') := fun hmem =>
          hin (hskipped.1 hmem)
        rw [List.map_cons, Prod.map, copyEach_cons_of_ok hin' hcopy', hrest', List.map_append]
        rfl

end Relink

end Folio

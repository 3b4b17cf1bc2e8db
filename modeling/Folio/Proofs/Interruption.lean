import Folio.Proofs.Growth
import Folio.Proofs.Indifference
import Folio.Proofs.Turns

/-!
# What a search leaves when it fails

A search extends the targets that it is given while it goes, so a failure leaves some of them
behind. **They are extended at their end only**, however the search ends: an old document keeps its
place and its target, and a document that gets a target keeps it.

**Failures (`Search.Breaks`).** A failure that is reported is that of reading a document. This is
the last one that has got a target, and all others that have got one in the search have been read.

**The same search with the document mended (`Search.Mends`).** If the document can be read and all
else is answered as before, a search takes the same turns up to there (`Mends.turns`), and then goes
on. So the new targets are those with which the other search begins.

Main result: `Search.collect_extends`.
-/

namespace Folio

open FileTree

namespace Search

variable {s : Search} {file target p : Path} {m m' : Targets} {w w' : Work} {read : List Path}
  {e : BuildError} {t' : FileTree}

/-! ## Targets are added at the end -/

theorem Grows.entries (h : s.Grows m m') : m.entries <+: m'.entries := by
  induction h with
  | refl => exact List.prefix_rfl
  | step _ _ _ hnone ih =>
      rw [entries_insert_of_get?_eq_none hnone]
      exact ih.trans (List.prefix_append _ _)

/-- **Old targets stay in front**, whether the search ends with a page or not. -/
theorem entries_collect (s : Search) (file target : Path) (m : Targets) :
    m.entries <+: (s.collect file target m).targets.entries := by
  cases hroot : m.get? file with
  | some there =>
      rw [collect_of_mapped hroot]
  | none =>
      have hfirst : m.entries <+: (m.insert file target).entries := by
        rw [entries_insert_of_get?_eq_none hroot]
        exact List.prefix_append _ _
      exact hfirst.trans (collect_grows hroot).entries

theorem Turns.entries (h : s.Turns w w') : w.targets.entries <+: w'.targets.entries := by
  cases h with
  | close | closeLast | kept | revisited => exact List.prefix_rfl
  | descended _ hnone _ =>
      rw [entries_insert_of_get?_eq_none hnone]
      exact List.prefix_append _ _

theorem entries_of_turns (h : Relation.ReflTransGen s.Turns w w') :
    w.targets.entries <+: w'.targets.entries := by
  induction h with
  | refl => exact List.prefix_rfl
  | tail _ hturn ih => exact ih.trans hturn.entries

theorem Stops.entries {r : Except BuildError Page} (h : s.Stops w read m r) :
    w.targets.entries <+: m.entries := by
  cases h with
  | finished | uncertain => exact List.prefix_rfl
  | unreadable _ hnone _ =>
      rw [entries_insert_of_get?_eq_none hnone]
      exact List.prefix_append _ _

/-! ## Documents that have been read -/

def Readable (s : Search) (p : Path) : Prop := (Document.read s.tree p s.encoding).isOk = true

instance (s : Search) (p : Path) : Decidable (s.Readable p) :=
  inferInstanceAs (Decidable ((Document.read s.tree p s.encoding).isOk = true))

theorem readable_iff : s.Readable p ↔ ∃ ls, Document.read s.tree p s.encoding = .ok ls := by
  rw [Readable]
  cases Document.read s.tree p s.encoding with
  | error e => simp [Except.isOk, Except.toBool]
  | ok ls => simp [Except.isOk, Except.toBool]

theorem readable_of_directives {ds : List Directive} (h : s.directives p target = .ok ds) :
    s.Readable p := by
  obtain ⟨ls, hread, -⟩ := exists_of_map_eq_ok h
  exact readable_iff.2 ⟨ls, hread⟩

theorem read_of_directives_error (h : s.directives p target = .error e) :
    Document.read s.tree p s.encoding = .error e :=
  error_of_map_eq_error h

/-- A turn reads at most one more document, and goes on only if it has been read. -/
theorem Turns.readable (h : s.Turns w w') (hw : ∀ q ∈ w.read, s.Readable q) :
    ∀ q ∈ w'.read, s.Readable q := by
  cases h with
  | close | closeLast | kept | revisited => exact hw
  | descended _ _ hds =>
      intro q hq
      rcases List.mem_append.1 hq with hold | hnew
      · exact hw q hold
      · rw [List.mem_singleton.1 hnew]
        exact readable_of_directives hds

theorem readable_of_turns {ds : List Directive} (hds : s.directives file target = .ok ds)
    (h : Relation.ReflTransGen s.Turns (start file target m ds) w) :
    ∀ q ∈ w.read, s.Readable q := by
  induction h with
  | refl =>
      intro q hq
      rw [List.mem_singleton.1 hq]
      exact readable_of_directives hds
  | tail _ hturn ih => exact hturn.readable ih

/-- The errors of reading that are reported name the document. -/
theorem message?_of_read {encoding msg : Text} (h : Document.read t' p encoding = .error e)
    (hmsg : e.message? = some msg) : msg = "Unable to read file ".toList ++ p.toText := by
  rcases Document.read_error h with ⟨rfl, -⟩ | ⟨c, rfl⟩
  · exact absurd hmsg (by simp [BuildError.message?])
  · exact (Option.some.inj hmsg).symm

/-! ## The same search on another tree -/

/-- The search on another file tree. -/
def on (s : Search) (t' : FileTree) : Search := { s with tree := t' }

/-- The document can be read in the other tree, which for the rest answers as that of the search:
what could be read is read as it was, and no other path has become a page or is one no longer. -/
structure Mends (s : Search) (p : Path) (t' : FileTree) : Prop where
  cwd : t'.cwd = s.tree.cwd
  page : ∀ q, q ≠ p → Document.isPage? t' q = Document.isPage? s.tree q
  read : ∀ q ls, Document.read s.tree q s.encoding = .ok ls →
    Document.read t' q s.encoding = .ok ls
  readable : (s.on t').Readable p

namespace Mends

variable (h : s.Mends p t')

include h

/-- Where the document was found to be a page, the trees give the same pages. -/
theorem promotes?_eq (hp : Document.isPage? s.tree p = .ok true) (d : Directive) :
    d.promotes? t' = d.promotes? s.tree := by
  have hpage : Document.isPage? t' d.actual = Document.isPage? s.tree d.actual := by
    by_cases hd : d.actual = p
    · obtain ⟨ls, hread⟩ := readable_iff.1 h.readable
      obtain ⟨content, hfile⟩ := Document.exists_status?_of_read hread
      have hname := (Document.isPage?_eq_true_iff.1 hp).1
      rw [hd, hp]
      exact Document.isPage?_eq_true_iff.2 ⟨hname, content, hfile⟩
    · exact h.page d.actual hd
  rw [Directive.promotes?, Directive.promotes?, hpage]

theorem directives_eq {q : Path} {ds : List Directive} (hds : s.directives q target = .ok ds) :
    (s.on t').directives q target = .ok ds := by
  obtain ⟨ls, hread, rfl⟩ := exists_of_map_eq_ok hds
  have hcwd : t'.cwdPath = s.tree.cwdPath := by rw [cwdPath, cwdPath, h.cwd]
  show (Document.read t' q s.encoding).map (fun lines => lines.filterMap fun line =>
    Directive.ofLine? t'.cwdPath q target (s.attributes.substitute line)) = _
  rw [h.read q ls hread, hcwd]
  rfl

/-- **The same turns are taken**, as long as the document itself is not read. -/
theorem turns (hp : Document.isPage? s.tree p = .ok true) (hturn : s.Turns w w') :
    (s.on t').Turns w w' := by
  have hpromotes := h.promotes?_eq hp
  cases hturn with
  | close => exact .close
  | closeLast => exact .closeLast
  | kept hd => exact .kept ((hpromotes _).trans hd)
  | revisited hd hm => exact .revisited ((hpromotes _).trans hd) hm
  | descended hd hnone hds => exact .descended ((hpromotes _).trans hd) hnone (h.directives_eq hds)

theorem reflTransGen_turns (hp : Document.isPage? s.tree p = .ok true)
    (hrun : Relation.ReflTransGen s.Turns w w') : Relation.ReflTransGen (s.on t').Turns w w' := by
  induction hrun with
  | refl => exact .refl
  | tail _ hturn ih => exact ih.tail (h.turns hp hturn)

end Mends

/-- **The other search goes on** where this one fails: it gives the document the same target. -/
theorem Mends.entries_collect {ds : List Directive} {d : Directive} {tasks : List Task}
    {draft : OpenPage} {outer : List OpenPage} (h : s.Mends d.actual t') (hroot : m.get? file = none)
    (hds : s.directives file target = .ok ds) (hp : d.promotes? s.tree = .ok true)
    (hnone : m'.get? d.actual = none)
    (hrun : Relation.ReflTransGen s.Turns (start file target m ds)
      ⟨.follow d :: tasks, draft, outer, m', read⟩) :
    (m'.insert d.actual d.result).entries <+:
      ((s.on t').collect file target m).targets.entries := by
  have hpage : Document.isPage? s.tree d.actual = .ok true := isPage?_of_promotes? hp
  obtain ⟨ls, hread⟩ := readable_iff.1 h.readable
  obtain ⟨inner, hinner⟩ : ∃ inner, (s.on t').directives d.actual d.result = .ok inner := by
    rw [directives, hread]
    exact ⟨_, rfl⟩
  have hturn : (s.on t').Turns ⟨.follow d :: tasks, draft, outer, m', read⟩
      ⟨inner.map .follow ++ .close :: tasks, ⟨d.result, []⟩, draft :: outer,
        m'.insert d.actual d.result, read ++ [d.actual]⟩ :=
    .descended ((h.promotes?_eq hpage d).trans hp) hnone hinner
  obtain ⟨w, read', last, r, hrest, hstop⟩ := exists_stops (s.on t') _
  have hreads : (s.on t').Reads file target m read' last r :=
    .looped hroot (h.directives_eq hds) ((h.reflTransGen_turns hpage hrun).tail hturn |>.trans hrest)
      hstop
  have hlast : ((s.on t').collect file target m).targets = last :=
    congrArg (fun o => o.2.1) hreads.collect_eq
  rw [hlast]
  exact (entries_of_turns hrest).trans hstop.entries

/-- **Other bytes in the file of a document mend it**, if they have lines: all other files that
could be read are different ones. -/
theorem mends_of_resembles {loc : Location} (hres : s.tree.resolve p = .ok (.entry loc))
    (h : Resembles (fun loc' content content' => loc' = loc ∨ content' = content) s.tree t')
    (hbroken : ¬ s.Readable p) (hmended : (s.on t').Readable p) : s.Mends p t' := by
  refine ⟨h.cwd, fun q _ => ?_, fun q ls hread => ?_, hmended⟩
  · rw [Document.isPage?, Document.isPage?, h.isFile?_eq]
  · obtain ⟨hnull, content, hcontent, hls⟩ := Document.read_eq_ok_iff.1 hread
    rcases h.readFile_cases q with ⟨f, hf, -⟩ | ⟨loc', old, new, hres', hrel, hold, hnew⟩
    · exact absurd (hcontent.symm.trans hf) (by simp)
    · obtain rfl := Except.ok.inj (hcontent.symm.trans hold)
      rcases hrel with rfl | rfl
      · -- the file of the document itself has no lines
        have hfile : s.tree.readFile p = .ok content := by
          rw [readFile, hres'] at hold
          rw [readFile, hres]
          exact hold
        exact absurd (readable_iff.2 ⟨ls, Document.read_eq_ok_iff.2 ⟨hnull, content, hfile, hls⟩⟩)
          hbroken
      · exact Document.read_eq_ok_iff.2 ⟨hnull, new, hnew, hls⟩

/-! ## Failures -/

/-- The search fails at the document `p`, when it has gone into the documents `before` and read
them. A search that can read `p` begins with the same targets. -/
structure Breaks (s : Search) (file target : Path) (m : Targets) (before : List Path) (p : Path)
    (e : BuildError) : Prop where
  keys : (s.collect file target m).targets.keys = m.keys ++ (before ++ [p])
  others : ∀ q ∈ before, s.Readable q
  last : Document.read s.tree p s.encoding = .error e
  mended : ∀ t', s.Mends p t' → (s.collect file target m).targets.entries <+:
    ((s.on t').collect file target m).targets.entries

theorem Reads.breaks {msg : Text} (h : s.Reads file target m read m' (.error e))
    (hmsg : e.message? = some msg) :
    ∃ before p, read = before ++ [p] ∧ (∀ q ∈ before, s.Readable q) ∧
      Document.read s.tree p s.encoding = .error e ∧
      ∀ t', s.Mends p t' → m'.entries <+: ((s.on t').collect file target m).targets.entries := by
  cases h with
  | unreadable hroot hds =>
      exact ⟨[], file, rfl, by simp, read_of_directives_error hds, fun t' _ =>
        (collect_grows (s := s.on t') hroot).entries⟩
  | looped hroot hds hrun hstop =>
      have hothers := readable_of_turns hds hrun
      cases hstop with
      | uncertain _ => exact absurd hmsg (by simp [BuildError.message?])
      | @unreadable d _ _ _ _ before _ hp hnone hds' =>
          exact ⟨before, d.actual, rfl, hothers, read_of_directives_error hds', fun t' hmends =>
            hmends.entries_collect hroot hds hp hnone hrun⟩

/-- **A search extends the targets that it is given**, whether it ends with a page or not: the old
ones stay in front, and each new one is that of a document without a target. A document that has a
target already is not even read. If the search fails with an error that is reported, this names the
last document with a target. It alone could not be read, and if it could, the search would begin
with the same targets. -/
theorem collect_extends (s : Search) (file target : Path) (m : Targets) :
    m.entries <+: (s.collect file target m).targets.entries ∧
    (m.get? file = none →
      s.Grows (m.insert file target) (s.collect file target m).targets) ∧
    (∀ there, m.get? file = some there →
      s.collect file target m = ⟨m, [], .ok (.leaf there)⟩ ∧
      s.Reads file target m [] m (.ok (.leaf there))) ∧
    ∀ e msg, (s.collect file target m).result = .error e → e.message? = some msg →
      ∃ before p, s.Breaks file target m before p e ∧
        msg = "Unable to read file ".toList ++ p.toText := by
  refine ⟨entries_collect s file target m, collect_grows,
    fun there hthere => ⟨collect_of_mapped hthere, .mapped hthere⟩, fun e msg hfails hmsg => ?_⟩
  have hreads := reads_collect s file target m
  rw [hfails] at hreads
  obtain ⟨before, p, hread, hothers, hlast, hmended⟩ := hreads.breaks hmsg
  exact ⟨before, p, ⟨hread ▸ hreads.keys, hothers, hlast, hmended⟩, message?_of_read hlast hmsg⟩

/-- Documents of which one is not in the encoding. -/
def torn : Search :=
  ⟨.ofFiles [("/s/a.adoc", "include::b.adoc[]\ninclude::c.adoc[]\n"),
      ("/s/b.adoc", "include::x.adoc[]\ninclude::a.adoc[]\n"), ("/s/c.adoc", "\u00ff\n"),
      ("/s/e.adoc", ""), ("/s/x.adoc", "")],
    .empty, "utf-8".toList⟩

/-- The same documents when that one has been mended. -/
def mendedTorn : FileTree :=
  .ofFiles [("/s/a.adoc", "include::b.adoc[]\ninclude::c.adoc[]\n"),
    ("/s/b.adoc", "include::x.adoc[]\ninclude::a.adoc[]\n"), ("/s/c.adoc", "include::e.adoc[]\n"),
    ("/s/e.adoc", ""), ("/s/x.adoc", "")]

/-- The documents of that name in the directory of these documents. -/
def tornPath (name : String) : Path := .ofText ("/s/".toList ++ name.toList)

/-- A target for one of the documents. -/
def tornTargets : Targets := .insert .empty (tornPath "x.adoc") default

theorem torn_mends : torn.Mends (tornPath "c.adoc") mendedTorn := by
  have hkeys : mendedTorn.entries.keys = torn.tree.entries.keys ∧
      ∀ loc ∈ torn.tree.entries.keys, mendedTorn.entryAt loc = torn.tree.entryAt loc ∨
        (loc = (tornPath "c.adoc").location ∧ (torn.tree.entryAt loc).any Entry.isFile ∧
          (mendedTorn.entryAt loc).any Entry.isFile) := by
    decide +kernel
  have hcwd : mendedTorn.cwd = torn.tree.cwd := by decide +kernel
  have hresolve : torn.tree.resolve (tornPath "c.adoc") =
      .ok (.entry (tornPath "c.adoc").location) := by
    decide +kernel
  have hbroken : ¬ torn.Readable (tornPath "c.adoc") := by decide +kernel
  have hmended : (torn.on mendedTorn).Readable (tornPath "c.adoc") := by decide +kernel
  refine mends_of_resembles hresolve ⟨hcwd, fun loc => ?_⟩ hbroken hmended
  rcases entryAt_eq_of_keys hkeys.1 hkeys.2 loc with hsame | ⟨hloc, hfile, hfile'⟩
  · rw [hsame]
    exact .refl (fun _ => .inr rfl) _
  · obtain ⟨content, hfile⟩ := Entry.any_isFile hfile
    obtain ⟨content', hfile'⟩ := Entry.any_isFile hfile'
    exact .inr ⟨content, content', hfile, hfile', .inl hloc⟩

theorem torn_fails :
    (torn.collect (tornPath "a.adoc") default tornTargets).result =
        .error (.unreadable (tornPath "c.adoc") .text) ∧
      (torn.collect (tornPath "a.adoc") default tornTargets).targets.keys =
        ["x.adoc", "a.adoc", "b.adoc", "c.adoc"].map tornPath := by
  have h : (torn.collect (tornPath "a.adoc") default tornTargets).result.map (fun _ => ()) =
        .error (.unreadable (tornPath "c.adoc") .text) ∧
      (torn.collect (tornPath "a.adoc") default tornTargets).targets.keys =
        ["x.adoc", "a.adoc", "b.adoc", "c.adoc"].map tornPath := by
    decide +kernel
  exact ⟨error_of_map_eq_error h.1, h.2⟩

theorem torn_collect_extends :
    ((torn.collect (tornPath "a.adoc") default tornTargets).result =
        .error (.unreadable (tornPath "c.adoc") .text) ∧
      torn.Mends (tornPath "c.adoc") mendedTorn) ∧
    tornTargets.entries <+:
      (torn.collect (tornPath "a.adoc") default tornTargets).targets.entries ∧
    torn.Breaks (tornPath "a.adoc") default tornTargets (["a.adoc", "b.adoc"].map tornPath)
      (tornPath "c.adoc") (.unreadable (tornPath "c.adoc") .text) ∧
    (torn.collect (tornPath "a.adoc") default tornTargets).targets.entries <+:
      ((torn.on mendedTorn).collect (tornPath "a.adoc") default tornTargets).targets.entries ∧
    ((torn.on mendedTorn).collect (tornPath "a.adoc") default tornTargets).targets.keys =
      ["x.adoc", "a.adoc", "b.adoc", "c.adoc", "e.adoc"].map tornPath := by
  obtain ⟨hold, -, -, hbreaks⟩ := collect_extends torn (tornPath "a.adoc") default tornTargets
  obtain ⟨before, p, hbreak, -⟩ := hbreaks _ _ torn_fails.1 rfl
  have hnew : before ++ [p] = ["a.adoc", "b.adoc"].map tornPath ++ [tornPath "c.adoc"] :=
    (List.append_right_inj tornTargets.keys).1 (hbreak.keys.symm.trans torn_fails.2)
  obtain ⟨rfl, hp⟩ := List.append_inj' hnew rfl
  obtain rfl := List.singleton_inj.1 hp
  exact ⟨⟨torn_fails.1, torn_mends⟩, hold, hbreak, hbreak.mended mendedTorn torn_mends,
    by decide +kernel⟩

end Search

end Folio

import Folio.Proofs.PageCopies

/-!
# The events account for every decision

A build tells what it does. **Nothing that it decides is left out, and nothing is told twice.**

**Searches** (`Search.collect_told`). The documents that are gone into are those that get a place,
in this order. Each including line of such a document is decided about once: the event says that the
document becomes a page, that it is one already, or that it stays, and within a document the
decisions stand in the order of the lines, also where the search of another document comes between
two of them. A document that becomes a page is gone into at once. Each page but the first one stands
for one of these events.

**Runs** (`Build.run_accounts`). The events of a run are those of its visits, one for each document
at the source. A visit first searches and then makes copies: of the documents that it has found, in
order, but not where a copy has been made before. The copies that are told are the copies in the
list.

A build that has failed keeps its list of copies. So if it is run again, the copies in the list are
not made, and no event accounts for them (`mended_copy_unaccounted`).
-/

namespace Folio

open FileTree

/-! ## What an event says -/

namespace Event

/-- The document that is gone into, with the place for its copy. -/
def entered? : Event → Option (Path × Path)
  | .entered file target => some (file, target)
  | _ => none

/-- The document that is copied, with the place for its copy. -/
def copied? : Event → Option (Path × Path)
  | .copied file target => some (file, target)
  | _ => none

/-- The document with the including line that is decided about. -/
def decidedIn? : Event → Option Path
  | .promoted _ _ _ file _ => some file
  | .kept _ _ file _ => some file
  | .revisited _ _ file _ => some file
  | _ => none

def addsPage : Event → Bool
  | .promoted .. => true
  | .revisited .. => true
  | _ => false

/-- The event is one of a search. -/
def inSearch : Event → Bool
  | .entered .. => true
  | .promoted .. => true
  | .kept .. => true
  | .revisited .. => true
  | _ => false

/-- The event tells what becomes of a reference in a line of a copy. -/
def inLine : Event → Bool
  | .repointed .. => true
  | .missing .. => true
  | _ => false

/-- The event is one of the making of copies. -/
def inCopy (e : Event) : Bool := e.copied?.isSome || e.inLine

theorem copied?_of_inLine {e : Event} (h : e.inLine) : e.copied? = none := by
  cases e <;> simp_all [inLine, copied?]

/-- The decisions about the including lines of a document. -/
def decisions (file : Path) (es : List Event) : List Event :=
  es.filter fun e => e.decidedIn? = some file

theorem decisions_append (file : Path) (es es' : List Event) :
    decisions file (es ++ es') = decisions file es ++ decisions file es' :=
  List.filter_append ..

theorem decisions_cons_of_eq {file : Path} {e : Event} (h : e.decidedIn? = some file)
    (es : List Event) : decisions file (e :: es) = e :: decisions file es := by
  simp [decisions, h]

theorem decisions_cons_of_ne {file : Path} {e : Event} (h : e.decidedIn? ≠ some file)
    (es : List Event) : decisions file (e :: es) = decisions file es := by
  simp [decisions, h]

end Event

open Event (decisions)

/-! ## Searches -/

namespace Search

variable {s : Search} {m m' : Targets} {ds : List Directive} {es : List Event} {ts : List Outline}

/-- The event tells what becomes of the document that the directive includes: it becomes a page, is
a page already, or stays in its place. -/
inductive Decides (s : Search) (d : Directive) : Event → Prop
  | promoted : d.promotes? s.tree = .ok true →
      Decides s d (.promoted d.path d.actual d.result d.file d.target)
  | revisited : d.promotes? s.tree = .ok true →
      Decides s d (.revisited d.path d.actual d.file d.target)
  | kept : d.promotes? s.tree = .ok false → Decides s d (.kept d.path d.actual d.file d.target)

theorem Decides.decidedIn? {d : Directive} {e : Event} (h : s.Decides d e) :
    e.decidedIn? = some d.file := by
  cases h <;> rfl

/-- The decisions are about the directives of the document among these, one by one. -/
def DecidedIn (s : Search) (file : Path) (ds : List Directive) (es : List Event) : Prop :=
  List.Forall₂ s.Decides (ds.filter fun d => d.file = file) (decisions file es)

theorem DecidedIn.cons {file : Path} {d : Directive} {e : Event} (he : s.Decides d e)
    (h : s.DecidedIn file ds es) : s.DecidedIn file (d :: ds) (e :: es) := by
  by_cases hfile : d.file = file
  · rw [DecidedIn, Event.decisions_cons_of_eq (hfile ▸ he.decidedIn?),
      List.filter_cons_of_pos (by simpa using hfile)]
    exact .cons he h
  · rw [DecidedIn, Event.decisions_cons_of_ne (by rw [he.decidedIn?]; simpa using hfile),
      List.filter_cons_of_neg (by simpa using hfile)]
    exact h

theorem DecidedIn.eq_nil {file : Path} (h : s.DecidedIn file ds es)
    (hds : ∀ d ∈ ds, d.file ≠ file) :
    decisions file es = [] := by
  rw [DecidedIn, List.filter_eq_nil_iff.2 fun d hd => by simpa using hds d hd] at h
  exact List.forall₂_nil_left_iff.1 h

theorem DecidedIn.all {file : Path} (h : s.DecidedIn file ds es) (hds : ∀ d ∈ ds, d.file = file) :
    List.Forall₂ s.Decides ds (decisions file es) := by
  rwa [DecidedIn, List.filter_eq_self.2 fun d hd => by simpa using hds d hd] at h

theorem file_of_mem_directives {file target : Path} (h : s.directives file target = .ok ds) :
    ∀ d ∈ ds, d.file = file := by
  obtain ⟨ls, -, rfl⟩ := exists_of_map_eq_ok h
  intro d hd
  obtain ⟨l, -, hl⟩ := List.mem_filterMap.1 hd
  obtain ⟨m, -, rfl⟩ := Option.map_eq_some_iff.1 hl
  rfl

/-- The events of a directive whose document is gone into. -/
theorem decisions_promoted {file : Path} {d : Directive} (es₁ es₂ : List Event)
    (hne : d.file ≠ file) :
    decisions file (.promoted d.path d.actual d.result d.file d.target ::
        .entered d.actual d.result :: (es₁ ++ es₂)) =
      decisions file es₁ ++ decisions file es₂ := by
  rw [Event.decisions_cons_of_ne (by simpa [Event.decidedIn?] using hne),
    Event.decisions_cons_of_ne (by simp [Event.decidedIn?]), Event.decisions_append]

/-- The decisions in a document that has had a target before are those about its directives. -/
theorem Follows.decidedIn (h : s.Follows m ds m' es ts) {file : Path} (hfile : file ∈ m.keys) :
    s.DecidedIn file ds es := by
  induction h with
  | nil => exact .nil
  | kept hkept _ ih => exact .cons (.kept hkept) (ih hfile)
  | revisited hpage _ _ ih => exact .cons (.revisited hpage) (ih hfile)
  | @promoted m m₁ m₂ d ds inner es₁ es₂ ts₁ ts₂ hpage hm hd h₁ _ ih₁ ih₂ =>
      have hfile' := mem_keys_insert_of_mem (t := d.result) hm hfile
      -- The search of the document that is gone into decides nothing here.
      have hinner : decisions file es₁ = [] := (ih₁ hfile').eq_nil fun d' hd' => by
        rw [file_of_mem_directives hd d' hd']
        rintro rfl
        exact not_mem_keys_iff.2 hm hfile
      refine .cons (.promoted hpage) ?_
      rw [DecidedIn, Event.decisions_cons_of_ne (by simp [Event.decidedIn?]),
        Event.decisions_append,
        hinner, List.nil_append]
      exact ih₂ (h₁.mem_keys_mono hfile')

/-- **The decisions in a new document** are those about its directives, and there are none in a
document without a target. -/
theorem Follows.decided (h : s.Follows m ds m' es ts) (hds : ∀ d ∈ ds, d.file ∈ m.keys)
    {file : Path} (hfile : file ∉ m.keys) :
    (file ∉ m'.keys ∧ decisions file es = []) ∨
      ∃ target inner, m'.get? file = some target ∧ s.directives file target = .ok inner ∧
        List.Forall₂ s.Decides inner (decisions file es) := by
  induction h with
  | nil => exact .inl ⟨hfile, rfl⟩
  | @kept _ _ d _ _ _ _ _ ih =>
      rw [List.forall_mem_cons] at hds
      have hne : d.file ≠ file := ne_of_mem_of_not_mem hds.1 hfile
      rw [Event.decisions_cons_of_ne (by simpa [Event.decidedIn?] using hne)]
      exact ih hds.2 hfile
  | @revisited _ _ d _ _ _ _ _ _ _ ih =>
      rw [List.forall_mem_cons] at hds
      have hne : d.file ≠ file := ne_of_mem_of_not_mem hds.1 hfile
      rw [Event.decisions_cons_of_ne (by simpa [Event.decidedIn?] using hne)]
      exact ih hds.2 hfile
  | @promoted m m₁ m₂ d ds inner es₁ es₂ ts₁ ts₂ hpage hm hd h₁ h₂ ih₁ ih₂ =>
      rw [List.forall_mem_cons] at hds
      rw [decisions_promoted es₁ es₂ (ne_of_mem_of_not_mem hds.1 hfile)]
      have hinner := file_of_mem_directives hd
      have hentered : d.actual ∈ (m.insert d.actual d.result).keys := by
        simp [keys_insert_of_get?_eq_none hm]
      have hrest : ∀ d' ∈ ds, d'.file ∈ m₁.keys := fun d' hd' =>
        h₁.mem_keys_mono (mem_keys_insert_of_mem hm (hds.2 d' hd'))
      have hother : ∀ d' ∈ ds, d'.file ≠ file := fun d' hd' =>
        ne_of_mem_of_not_mem (hds.2 d' hd') hfile
      by_cases heq : file = d.actual
      · subst heq
        rw [(h₂.decidedIn (h₁.mem_keys_mono hentered)).eq_nil hother, List.append_nil]
        exact .inr ⟨d.result, inner,
          h₂.get?_mono (h₁.get?_mono (by simp [OrderedMap.get?_insert])), hd,
          (h₁.decidedIn hentered).all hinner⟩
      · rcases ih₁ (fun d' hd' => hinner d' hd' ▸ hentered) (not_mem_keys_insert hm hfile heq) with
          ⟨hnot, hnil⟩ | ⟨target, inner', hget, hdir, hall⟩
        · rw [hnil, List.nil_append]
          exact ih₂ hrest hnot
        · rw [(h₂.decidedIn (mem_keys_of_get? hget)).eq_nil hother, List.append_nil]
          exact .inr ⟨target, inner', h₂.get?_mono hget, hdir, hall⟩

theorem entries_insert_aux {α β : Type} [DecidableEq α] {k : α} {v : β} {es : List (α × β)}
    (h : Entries.get? k es = none) : Entries.insert k v es = es ++ [(k, v)] := by
  induction es with
  | nil => rfl
  | cons e es ih =>
      by_cases hk : e.1 = k
      · simp [Entries.get?, hk] at h
      · simp only [Entries.get?, hk, if_false] at h
        simp [Entries.insert, hk, ih h]

theorem entries_insert_of_get?_eq_none {m : Targets} {a t : Path} (ha : m.get? a = none) :
    (m.insert a t).entries = m.entries ++ [(a, t)] :=
  entries_insert_aux ha

/-- **The documents that are gone into** are those that get a target, in order. -/
theorem Follows.entries (h : s.Follows m ds m' es ts) :
    m'.entries = m.entries ++ es.filterMap Event.entered? := by
  induction h with
  | nil => simp
  | kept _ _ ih => simpa [List.filterMap_cons, Event.entered?] using ih
  | revisited _ _ _ ih => simpa [List.filterMap_cons, Event.entered?] using ih
  | promoted _ hm _ _ _ ih₁ ih₂ =>
      rw [ih₂, ih₁, entries_insert_of_get?_eq_none hm]
      simp [List.filterMap_cons, Event.entered?]

/-- **Each page** stands for an event. -/
theorem Follows.length_nodesAll (h : s.Follows m ds m' es ts) :
    (Outline.nodesAll ts).length = es.countP Event.addsPage := by
  induction h with
  | nil => rfl
  | kept _ _ ih => simpa [List.countP_cons, Event.addsPage] using ih
  | revisited _ _ _ ih =>
      simp [Outline.nodesAll, Outline.nodes, List.countP_cons, Event.addsPage, ih]
  | promoted _ _ _ _ _ ih₁ ih₂ =>
      simp only [Outline.nodesAll, Outline.nodes, List.cons_append, List.length_cons,
        List.length_append, ih₁, ih₂, List.countP_cons, List.countP_append, Event.addsPage]
      simp

theorem Follows.inSearch (h : s.Follows m ds m' es ts) : ∀ e ∈ es, e.inSearch := by
  induction h with
  | nil => simp
  | kept _ _ ih => simpa [Event.inSearch] using ih
  | revisited _ _ _ ih => simpa [Event.inSearch] using ih
  | promoted _ _ _ _ _ ih₁ ih₂ => simpa [Event.inSearch, or_imp, forall_and] using ⟨ih₁, ih₂⟩

/-- Each document that becomes a page is gone into at once. -/
def Paired : List Event → Prop
  | [] => True
  | .promoted _ actual result _ _ :: es => es.head? = some (.entered actual result) ∧ Paired es
  | _ :: es => Paired es

theorem Paired.append {es es' : List Event} (h : Paired es) (h' : Paired es') :
    Paired (es ++ es') := by
  induction es with
  | nil => exact h'
  | cons e es ih =>
      cases e with
      | promoted path actual result file target =>
          exact ⟨(List.head?_append ..).trans (by rw [h.1, Option.some_or]), ih h.2⟩
      | listed | entered | kept | revisited | copied | repointed | missing => exact ih h

theorem Follows.paired (h : s.Follows m ds m' es ts) : Paired es := by
  induction h with
  | nil => trivial
  | kept _ _ ih => exact ih
  | revisited _ _ _ ih => exact ih
  | promoted _ _ _ _ _ ih₁ ih₂ => exact ⟨rfl, ih₁.append ih₂⟩

/-- The events of a finding tell how the search came to it: which documents it has gone into, in
order, what has been decided about each including line of these, and about no others, and how many
pages there are. A document that becomes a page has been gone into at once. -/
structure Told (s : Search) (m : Targets) (f : Finding) (page : Page) : Prop where
  result : f.result = .ok page
  entered : f.targets.entries = m.entries ++ f.events.filterMap Event.entered?
  decided : ∀ file target, f.targets.get? file = some target → file ∉ m.keys →
    ∃ ds, s.directives file target = .ok ds ∧ List.Forall₂ s.Decides ds (decisions file f.events)
  other : ∀ file, file ∉ f.targets.keys ∨ file ∈ m.keys → decisions file f.events = []
  paired : Paired f.events
  pages : (Page.rows 0 [page]).length = 1 + f.events.countP Event.addsPage
  search : ∀ e ∈ f.events, e.inSearch

/-- **The events of a search account for its decisions.** -/
theorem collect_told {file target : Path} {page : Page} (hroot : file ∉ m.keys)
    (hpage : (s.collect file target m).result = .ok page) :
    s.Told m (s.collect file target m) page := by
  have hget := not_mem_keys_iff.1 hroot
  obtain ⟨ds, m', es, ts, hd, hfollows, hcollect⟩ := collect_follows hget hpage
  obtain rfl : (Outline.node file target ts).page = page := by simpa [hcollect] using hpage
  have hfiles := file_of_mem_directives hd
  have hentered : file ∈ (m.insert file target).keys := by simp [keys_insert_of_get?_eq_none hget]
  have hall : ∀ d ∈ ds, d.file ∈ (m.insert file target).keys := fun d hd => hfiles d hd ▸ hentered
  have hdecided : ∀ G, decisions G (.entered file target :: es) = decisions G es := fun G =>
    Event.decisions_cons_of_ne (by simp [Event.decidedIn?]) es
  rw [hcollect]
  refine ⟨rfl, ?_, ?_, ?_, hfollows.paired, ?_, ?_⟩
  · rw [hfollows.entries, entries_insert_of_get?_eq_none hget]
    simp [Event.entered?]
  · intro G T hG hnot
    simp only [hdecided]
    by_cases heq : G = file
    · subst heq
      have hfirst : (m.insert G target).get? G = some target := by simp [OrderedMap.get?_insert]
      obtain rfl : target = T := by simpa [hG] using (hfollows.get?_mono hfirst).symm
      exact ⟨ds, hd, (hfollows.decidedIn hentered).all hfiles⟩
    · rcases hfollows.decided hall (not_mem_keys_insert hget hnot heq) with
        ⟨hnot', -⟩ | ⟨T', inner, hT', hinner, hforall⟩
      · exact absurd (mem_keys_of_get? hG) hnot'
      · obtain rfl : T' = T := by simpa [hG] using hT'.symm
        exact ⟨inner, hinner, hforall⟩
  · intro G hG
    simp only [hdecided]
    rcases hG with hG | hG
    · rcases hfollows.decided hall (fun hmem => hG (hfollows.mem_keys_mono hmem)) with
        ⟨-, hnil⟩ | ⟨T', inner, hT', -⟩
      · exact hnil
      · exact absurd (mem_keys_of_get? hT') hG
    · exact (hfollows.decidedIn (mem_keys_insert_of_mem hget hG)).eq_nil fun d hd =>
        hfiles d hd ▸ ne_of_mem_of_not_mem hG hroot |>.symm
  · have hlength := congrArg List.length (Outline.walk_page 0 (.node file target ts))
    simp only [List.length_map, Outline.nodes, List.length_cons,
      hfollows.length_nodesAll] at hlength
    simp only [Page.rows, List.map_cons, List.map_nil, hlength, List.countP_cons]
    simp [Event.addsPage, Nat.add_comm]
  · simpa [Event.inSearch] using hfollows.inSearch

end Search

/-! ## Copies -/

namespace Relink

variable {how : Copying} {targets : Targets} {skip : List Path} {docs : List (Path × Path)}
  {t : FileTree}

theorem match?_inLine {c : Copy} {kind : Reference} {m : Match} {e : Event} {text : Text}
    (h : match? c kind m = .ok (e, text)) : e.inLine := by
  simp only [match?] at h
  split at h
  · cases h
  · cases h
    rfl
  · cases h
    rfl

theorem pieces_inLine (c : Copy) (kind : Reference) (ps : List Grammar.Piece) :
    ∀ e ∈ (pieces c kind ps).1, e.inLine := by
  induction ps with
  | nil => simp [pieces]
  | cons p ps ih =>
      cases p with
      | plain x => exact ih
      | hit m =>
          rw [pieces]
          split
          · simp
          · next e text hmatch => exact List.forall_mem_cons.2 ⟨match?_inLine hmatch, ih⟩

theorem line_inLine (c : Copy) (kinds : List Reference) (s : Text) :
    ∀ e ∈ (line c kinds s).1, e.inLine := by
  induction kinds generalizing s with
  | nil => simp [line]
  | cons kind kinds ih =>
      have hpieces := pieces_inLine c kind (kind.grammar.pieces s)
      rw [line]
      split
      · next es f h => exact h ▸ hpieces
      · next es s' h =>
          rw [h] at hpieces
          exact List.forall_mem_append.2 ⟨hpieces, ih s'⟩

theorem lines_inLine (c : Copy) (kinds : List Reference) (attributes : Attributes)
    (ls : List Text) :
    ∀ e ∈ (lines c kinds attributes ls).1, e.inLine := by
  induction ls with
  | nil => simp [lines]
  | cons l ls ih =>
      have hline := line_inLine c kinds (attributes.substitute l)
      rw [lines]
      split
      · next es f h => rwa [h] at hline
      · next es l' h =>
          rw [h] at hline
          exact List.forall_mem_append.2 ⟨hline, ih⟩

/-- The making of a copy is told first, and then its lines. -/
theorem copy_events (how : Copying) (targets : Targets) (file target : Path) (t : FileTree) :
    ∃ es, (copy how targets file target t).events = .copied file target :: es ∧
      ∀ e ∈ es, e.inLine := by
  rw [copy]
  split
  · exact ⟨[], rfl, by simp⟩
  · next ls _ =>
      have hlines := lines_inLine ⟨t, targets, file, target⟩ how.kinds how.attributes ls
      split
      · next es f h => exact ⟨es, rfl, by rwa [h] at hlines⟩
      · next es out h => exact ⟨es, rfl, by rwa [h] at hlines⟩

theorem copy_inCopy (how : Copying) (targets : Targets) (file target : Path) (t : FileTree) :
    ∀ e ∈ (copy how targets file target t).events, e.inCopy := by
  obtain ⟨es, hes, hlines⟩ := copy_events how targets file target t
  rw [hes]
  exact List.forall_mem_cons.2 ⟨rfl, fun e he => by simp [Event.inCopy, hlines e he]⟩

theorem copy_copied (how : Copying) (targets : Targets) (file target : Path) (t : FileTree) :
    (copy how targets file target t).events.filterMap Event.copied? = [(file, target)] := by
  obtain ⟨es, hes, hlines⟩ := copy_events how targets file target t
  have hnone : es.filterMap Event.copied? = [] :=
    List.filterMap_eq_nil_iff.2 fun e he => Event.copied?_of_inLine (hlines e he)
  rw [hes, List.filterMap_cons, hnone]
  rfl

theorem copyEach_inCopy (how : Copying) (targets : Targets) (skip : List Path)
    (docs : List (Path × Path)) (t : FileTree) :
    ∀ e ∈ (copyEach how targets skip docs t).events, e.inCopy := by
  induction docs generalizing t with
  | nil => simp [copyEach]
  | cons doc docs ih =>
      obtain ⟨file, target⟩ := doc
      have hcopy := copy_inCopy how targets file target t
      rw [copyEach]
      split
      · exact ih t
      · split
        · next h => simpa only [h] using hcopy
        · next h =>
            simp only [h] at hcopy
            exact List.forall_mem_append.2 ⟨hcopy, ih _⟩

/-- **The copies that are told** are those of the documents whose targets are not to be skipped. -/
theorem copyEach_copied {new : List Path}
    (h : (copyEach how targets skip docs t).result = .ok new) :
    (copyEach how targets skip docs t).events.filterMap Event.copied? =
      docs.filter fun e => e.2 ∉ skip := by
  induction docs generalizing t new with
  | nil => rfl
  | cons doc docs ih =>
      obtain ⟨file, target⟩ := doc
      have hcopied := copy_copied how targets file target t
      rw [copyEach] at h ⊢
      split at h
      · next hskip => rw [if_pos hskip, ih h, List.filter_cons_of_neg (by simpa using hskip)]
      · next hskip =>
          rw [if_neg hskip]
          split at h
          · cases h
          · next t' es hcopy =>
              obtain ⟨rest, hrest, -⟩ := exists_of_map_eq_ok h
              simp only [hcopy] at hcopied
              rw [List.filterMap_append, hcopied, ih hrest,
                List.filter_cons_of_pos (by simpa using hskip)]
              rfl

end Relink

/-! ## Runs -/

namespace Build

variable {b : Build} {t : FileTree} {written : List Path} {docs : List (Path × Path)}
  {pages : List Page} {v : Visit} {page : Page}

def told (b : Build) (v : Visit) : List Event := (b.found v).events ++ (b.copies v).events

/-- The copies that a visit tells of. -/
def copied (b : Build) (v : Visit) : List Path :=
  ((b.copies v).events.filterMap Event.copied?).map Prod.snd

/-- The events of a visit account for what it does: after those of its search there are only events
about copies, and a copy is made of each document with a target that has not been written in an
earlier visit, in order. -/
structure Accounts (b : Build) (v : Visit) (page : Page) : Prop where
  search : (b.search v).Told .empty (b.found v) page
  copy : ∀ e ∈ (b.copies v).events, e.inCopy
  copied : (b.copies v).events.filterMap Event.copied? =
    (b.found v).targets.entries.filter fun e => e.2 ∉ v.written

theorem visit_accounts {new : List Path} (hfound : (b.found v).result = .ok page)
    (hcopies : (b.copies v).result = .ok new) : b.Accounts v page ∧ b.copied v = new := by
  have hcopied := Relink.copyEach_copied hcopies
  refine ⟨⟨Search.collect_told List.not_mem_nil hfound, Relink.copyEach_inCopy _ _ _ _ _, hcopied⟩,
    ?_⟩
  rw [copied, copies, Relink.copyAll, hcopied, Relink.copyEach_result hcopies, List.filter_map]
  rfl

theorem makePages_accounts (h : (b.makePages docs t written).result = .ok pages) :
    (b.visitAll docs t written).map (fun v => (v.file, v.target)) = docs ∧
      (b.makePages docs t written).events = (b.visitAll docs t written).flatMap b.told ∧
      List.Forall₂ b.Accounts (b.visitAll docs t written) pages ∧
      (b.makePages docs t written).written =
        written ++ (b.visitAll docs t written).flatMap b.copied ∧
      ∀ before v after, b.visitAll docs t written = before ++ v :: after →
        v.written = written ++ before.flatMap b.copied := by
  induction docs generalizing t written pages with
  | nil =>
      cases h
      simp [makePages, visitAll]
  | cons doc docs ih =>
      obtain ⟨file, target⟩ := doc
      obtain ⟨page, new, rest, hfound, hcopies, hrest, rfl⟩ :=
        makePages_cons_eq_ok (v := ⟨t, written, file, target⟩) h
      obtain ⟨hmade, hvisits⟩ := makePages_cons_of_ok docs (makePage_of_ok hfound hcopies)
      obtain ⟨haccounts, rfl⟩ := visit_accounts hfound hcopies
      obtain ⟨hdocs, hevents, hall, hlast, hbefore⟩ := ih hrest
      rw [hmade, hvisits]
      refine ⟨by rw [List.map_cons, hdocs], by rw [hevents, List.flatMap_cons]; rfl,
        .cons haccounts hall, by rw [hlast, List.flatMap_cons, List.append_assoc], ?_⟩
      rintro (- | ⟨v, before⟩) w after heq
      · obtain ⟨rfl, -⟩ := List.cons.inj heq
        simp
      · obtain ⟨rfl, htail⟩ := List.cons.inj heq
        rw [hbefore before w after htail, List.flatMap_cons, List.append_assoc]

theorem topLevel_events (b : Build) (t : FileTree) :
    ∀ e ∈ (b.topLevel t).1, e = .listed b.source := by
  rw [topLevel]
  split
  · simp
  · simp
  · split <;> simp

/-- **The events account for every decision of a run.** There is a visit to each document at the
source, in order, and each has its page. The events are those of the visits, behind the one of
looking the documents up. A visit finds what has been written by the visits before it, and the
copies that are told are all that the run adds to its list. -/
theorem run_accounts (hnew : b.pages = none) (hok : (b.run t).result = .ok pages) :
    ∃ es docs, b.topLevel t = (es, .ok docs) ∧ (∀ e ∈ es, e = .listed b.source) ∧
      (b.visits t).map (fun v => (v.file, v.target)) = docs ∧
      (b.run t).events = es ++ (b.visits t).flatMap b.told ∧
      List.Forall₂ b.Accounts (b.visits t) pages ∧
      (b.run t).written = b.written ++ (b.visits t).flatMap b.copied ∧
      ∀ before v after, b.visits t = before ++ v :: after →
        v.written = b.written ++ before.flatMap b.copied := by
  have hevents := b.topLevel_events t
  cases htop : b.topLevel t with
  | mk es r =>
      rw [htop] at hevents
      cases r with
      | error e =>
          rw [run, hnew] at hok
          simp only [make, htop] at hok
          cases hok
      | ok docs =>
          rw [run_eq_of_topLevel hnew htop] at hok ⊢
          rw [visits_of_topLevel hnew htop]
          obtain ⟨hdocs, htold, hall, hwritten, hbefore⟩ := makePages_accounts hok
          exact ⟨es, docs, rfl, hevents, hdocs, by rw [htold], hall, hwritten, hbefore⟩

/-- Two documents that share a third one: the second visit tells of its page, and of no copy. -/
theorem crossed_run_accounts :
    crossed.pages = none ∧
    ∃ pages, (crossed.run crossedTree).result = .ok pages ∧
      ∃ es docs, crossed.topLevel crossedTree = (es, .ok docs) ∧
        (∀ e ∈ es, e = .listed crossed.source) ∧
        (crossed.visits crossedTree).map (fun v => (v.file, v.target)) = docs ∧
        (crossed.run crossedTree).events = es ++ (crossed.visits crossedTree).flatMap crossed.told ∧
        List.Forall₂ crossed.Accounts (crossed.visits crossedTree) pages ∧
        (crossed.run crossedTree).written =
          crossed.written ++ (crossed.visits crossedTree).flatMap crossed.copied ∧
        ∀ before v after, crossed.visits crossedTree = before ++ v :: after →
          v.written = crossed.written ++ before.flatMap crossed.copied := by
  have hdone : (crossed.run crossedTree).result.toOption.map (·.map Page.path) =
      some (sharedDocs.map Prod.snd) := by
    rw [run_eq_of_topLevel (b := crossed) rfl crossed_topLevel]
    decide +kernel
  obtain ⟨pages, hok, -⟩ := exists_pages hdone
  exact ⟨rfl, pages, hok, run_accounts rfl hok⟩

/-- **No event accounts for a copy**, and the place in the list is not told, when a build has failed
and is run again: its list holds the copy of the failed run already. -/
theorem mended_copy_unaccounted :
    let a := spoiltDoc "a.adoc"
    let b := spoiltDoc "b.adoc"
    let again := spoilt.after (spoilt.run spoiltTree)
    let retry := again.run mendedTree
    (spoilt.run spoiltTree).result = .error (.unreadable b.1 .text) ∧ again.pages = none ∧
    retry.result.toOption.map (·.map Page.path) = some [a.2, b.2] ∧
    retry.events = [.listed spoilt.source, .entered a.1 a.2, .entered b.1 b.2, .copied b.1 b.2] ∧
    retry.written = [a.2, b.2] := by
  intro a b again retry
  refine ⟨spoilt_fails.1, congrArg Build.pages spoilt_after, ?_⟩
  rw [show retry = _ from spoilt_run_again mendedTree_topLevel]
  decide +kernel

end Build

end Folio

import Folio.Proofs.Account
import Folio.Proofs.Ending
import Mathlib.Data.Set.Card
import Mathlib.Order.Interval.Finset.Nat

/-!
# A search reads each document at most once

The agenda of a search gets longer whenever a document is gone into, so it is not plain that it is
ever worked off, however the documents include each other. Here the loop is told turn by turn, and
without any bound on the number of documents.

**Turns (`Search.Turns`).** A turn takes the first item off the agenda. Only if this is a directive
that makes a page of a document without a target, the document is read, its directives come in
front, and it has a target from now on.

**Termination (`Search.turns_wellFounded`).** After a turn, there are fewer pages without a target,
or just as many and a shorter agenda. Pages are finitely many, since their paths are short.

**What a turn keeps (`Search.Keeps`).** The documents read so far are those that have got a target,
in order. The pages that have been made and the directives on the agenda are together no more than
the directives of these documents and one.

Main result: `Search.collect_reads_once`. Documents are told apart by their paths.
-/

namespace Folio

/-! ## Pages -/

theorem OpenPage.size_add (p : Page) (d : OpenPage) : (d.add p).size = d.size + p.size := by
  simp only [add, size, Page.sizeAll]
  omega

theorem Page.size_leaf (p : Path) : (leaf p).size = 1 := rfl

/-! ## Directives on an agenda -/

namespace Task

/-- Whether the item is a directive. -/
def isFollow : Task → Bool
  | .follow _ => true
  | .close => false

/-- The number of directives on an agenda. -/
def followCount (tasks : List Task) : Nat := tasks.countP isFollow

@[simp] theorem followCount_close (tasks : List Task) :
    followCount (.close :: tasks) = followCount tasks := by
  rw [followCount, List.countP_cons_of_neg (by simp [isFollow]), followCount]

@[simp] theorem followCount_follow (d : Directive) (tasks : List Task) :
    followCount (.follow d :: tasks) = followCount tasks + 1 := by
  rw [followCount, List.countP_cons_of_pos rfl, followCount]

@[simp] theorem followCount_map (ds : List Directive) (tasks : List Task) :
    followCount (ds.map .follow ++ tasks) = ds.length + followCount tasks := by
  induction ds with
  | nil => simp
  | cons d ds ih =>
      rw [List.map_cons, List.cons_append, followCount_follow, ih, List.length_cons]
      omega

end Task

/-! ## Documents that are entered -/

namespace Finding

/-- The documents that were entered, in order. -/
def entered (f : Finding) : List Path := (f.events.filterMap Event.entered?).map Prod.fst

/-- What a finding comes to, behind these documents: all documents that were entered, the targets,
and the page or the error. -/
def outcome (read : List Path) (f : Finding) : List Path × Targets × Except BuildError Page :=
  (read ++ f.entered, f.targets, f.result)

theorem outcome_of_no_events (read : List Path) (m : Targets) (r : Except BuildError Page) :
    outcome read ⟨m, [], r⟩ = (read, m, r) := by
  simp [outcome, entered]

theorem outcome_after {read : List Path} {e : Event} {f : Finding} (he : e.entered? = none) :
    (f.after e).outcome read = f.outcome read := by
  simp [outcome, entered, after, he]

theorem outcome_after_entered (read : List Path) (file target : Path) (f : Finding) :
    (f.after (.entered file target)).outcome read = f.outcome (read ++ [file]) := by
  simp [outcome, entered, after, Event.entered?]

end Finding

namespace Search

variable {s : Search}

theorem size_finish (draft : OpenPage) (outer : List OpenPage) :
    (finish draft outer).size = draft.size + (outer.map OpenPage.size).sum := by
  induction outer generalizing draft with
  | nil => exact OpenPage.size_page draft
  | cons o outer ih =>
      have hnext : finish draft (o :: outer) = finish (o.add draft.page) outer := rfl
      rw [hnext, ih, OpenPage.size_add, OpenPage.size_page, List.map_cons, List.sum_cons]
      omega

/-! ## Turns -/

/-- What the loop of a search has before a turn: the agenda, the draft of the document whose lines
come next, those of the documents that include it, innermost first, the targets, and the documents
that have been read, in order. -/
structure Work where
  tasks : List Task
  draft : OpenPage
  outer : List OpenPage
  targets : Targets
  read : List Path

/-- A turn of the loop. A document at its end becomes a child of the one that includes it. A
document that has a target already is a leaf; one without gets a target and is read, and its
directives come first. -/
inductive Turns (s : Search) : Work → Work → Prop
  | close {tasks : List Task} {draft o : OpenPage} {outer : List OpenPage} {m : Targets}
      {read : List Path} :
      Turns s ⟨.close :: tasks, draft, o :: outer, m, read⟩
        ⟨tasks, o.add draft.page, outer, m, read⟩
  | closeLast {tasks : List Task} {draft : OpenPage} {m : Targets} {read : List Path} :
      Turns s ⟨.close :: tasks, draft, [], m, read⟩ ⟨tasks, draft, [], m, read⟩
  | kept {d : Directive} {tasks : List Task} {draft : OpenPage} {outer : List OpenPage} {m : Targets}
      {read : List Path} :
      d.promotes? s.tree = .ok false →
      Turns s ⟨.follow d :: tasks, draft, outer, m, read⟩ ⟨tasks, draft, outer, m, read⟩
  | revisited {d : Directive} {tasks : List Task} {draft : OpenPage} {outer : List OpenPage}
      {m : Targets} {read : List Path} {there : Path} :
      d.promotes? s.tree = .ok true → m.get? d.actual = some there →
      Turns s ⟨.follow d :: tasks, draft, outer, m, read⟩
        ⟨tasks, draft.add (.leaf there), outer, m, read⟩
  | descended {d : Directive} {ds : List Directive} {tasks : List Task} {draft : OpenPage}
      {outer : List OpenPage} {m : Targets} {read : List Path} :
      d.promotes? s.tree = .ok true → m.get? d.actual = none →
      s.directives d.actual d.result = .ok ds →
      Turns s ⟨.follow d :: tasks, draft, outer, m, read⟩
        ⟨ds.map .follow ++ .close :: tasks, ⟨d.result, []⟩, draft :: outer,
          m.insert d.actual d.result, read ++ [d.actual]⟩

/-- There is no further turn: these documents have been read, and the search ends with these targets
and this result. -/
inductive Stops (s : Search) : Work → List Path → Targets → Except BuildError Page → Prop
  | finished {draft : OpenPage} {outer : List OpenPage} {m : Targets} {read : List Path} :
      Stops s ⟨[], draft, outer, m, read⟩ read m (.ok (finish draft outer))
  | uncertain {d : Directive} {tasks : List Task} {draft : OpenPage} {outer : List OpenPage}
      {m : Targets} {read : List Path} {f : Fault} :
      d.promotes? s.tree = .error f →
      Stops s ⟨.follow d :: tasks, draft, outer, m, read⟩ read m (.error (.uncertain f))
  | unreadable {d : Directive} {tasks : List Task} {draft : OpenPage} {outer : List OpenPage}
      {m : Targets} {read : List Path} {e : BuildError} :
      d.promotes? s.tree = .ok true → m.get? d.actual = none →
      s.directives d.actual d.result = .error e →
      Stops s ⟨.follow d :: tasks, draft, outer, m, read⟩ (read ++ [d.actual])
        (m.insert d.actual d.result) (.error e)

/-- What the loop begins with, when the directives of the first document have been read. -/
def start (file target : Path) (m : Targets) (ds : List Directive) : Work :=
  ⟨ds.map .follow, ⟨target, []⟩, [], m.insert file target, [file]⟩

/-- A search reads these documents, in order, and ends with these targets and this result: at once,
if the document has a target or cannot be read, or when there is no further turn. -/
inductive Reads (s : Search) (file target : Path) (m : Targets) :
    List Path → Targets → Except BuildError Page → Prop
  | mapped {there : Path} : m.get? file = some there →
      Reads s file target m [] m (.ok (.leaf there))
  | unreadable {e : BuildError} : m.get? file = none → s.directives file target = .error e →
      Reads s file target m [file] (m.insert file target) (.error e)
  | looped {ds : List Directive} {w : Work} {read : List Path} {m' : Targets}
      {r : Except BuildError Page} :
      m.get? file = none → s.directives file target = .ok ds →
      Relation.ReflTransGen s.Turns (start file target m ds) w → s.Stops w read m' r →
      Reads s file target m read m' r

/-! ## The loop comes to its end -/

/-- The pages that have no target. -/
def unmapped (s : Search) (m : Targets) : Set Path :=
  {p | Document.isPage? s.tree p = .ok true ∧ m.get? p = none}

theorem finite_of_short {ps : Set Path} {limit : Nat}
    (hshort : ∀ p ∈ ps, p.toText.byteLength < limit) : ps.Finite := by
  refine Set.Finite.of_injOn (f := fun p : Path => p.toText.code)
    (t := Set.Iio (Nat.pow 256 limit - 1)) ?_ ?_ (Set.finite_Iio _)
  · exact fun p hp => Text.code_lt (hshort p hp)
  · intro p _ q _ h
    rw [← Path.ofText_toText p, ← Path.ofText_toText q, Text.code_inj h]

theorem finite_unmapped (s : Search) (m : Targets) : (s.unmapped m).Finite :=
  finite_of_short fun _ hp => (refusal?_eq_none (refusal?_of_isPage? hp.1)).2

/-- A page that gets a target is one of those no longer. -/
theorem ncard_unmapped_insert {m : Targets} {a t : Path}
    (hpage : Document.isPage? s.tree a = .ok true) (hnone : m.get? a = none) :
    (s.unmapped (m.insert a t)).ncard < (s.unmapped m).ncard := by
  refine Set.ncard_lt_ncard ⟨fun p hp => ⟨hp.1, ?_⟩, fun hsub => ?_⟩ (finite_unmapped s m)
  · obtain ⟨-, hp⟩ := hp
    rw [OrderedMap.get?_insert] at hp
    split at hp
    · exact absurd hp (by simp)
    · exact hp
  · have ha := (hsub ⟨hpage, hnone⟩ : a ∈ s.unmapped (m.insert a t)).2
    simp [OrderedMap.get?_insert] at ha

/-- **No loop turns for ever**, from whatever it begins with. -/
theorem turns_wellFounded (s : Search) : WellFounded fun w' w => s.Turns w w' := by
  refine Subrelation.wf ?_ (InvImage.wf
    (fun w : Work => ((s.unmapped w.targets).ncard, w.tasks.length))
    (Prod.lex ⟨_, Nat.lt_wfRel.wf⟩ ⟨_, Nat.lt_wfRel.wf⟩).wf)
  intro w' w h
  cases h with
  | close | closeLast | kept | revisited => exact .right _ (Nat.lt_succ_self _)
  | descended hp hnone _ => exact .left _ _ (ncard_unmapped_insert (isPage?_of_promotes? hp) hnone)

theorem turns_or_stops (s : Search) (w : Work) :
    (∃ w', s.Turns w w') ∨ ∃ read m r, s.Stops w read m r := by
  obtain ⟨tasks, draft, outer, m, read⟩ := w
  cases tasks with
  | nil => exact .inr ⟨_, _, _, .finished⟩
  | cons task tasks =>
      cases task with
      | close =>
          cases outer with
          | nil => exact .inl ⟨_, .closeLast⟩
          | cons o outer => exact .inl ⟨_, .close⟩
      | follow d =>
          cases hp : d.promotes? s.tree with
          | error f => exact .inr ⟨_, _, _, .uncertain hp⟩
          | ok promotes =>
              cases promotes with
              | false => exact .inl ⟨_, .kept hp⟩
              | true =>
                  cases hm : m.get? d.actual with
                  | some there => exact .inl ⟨_, .revisited hp hm⟩
                  | none =>
                      cases hd : s.directives d.actual d.result with
                      | error e => exact .inr ⟨_, _, _, .unreadable hp hm hd⟩
                      | ok ds => exact .inl ⟨_, .descended hp hm hd⟩

theorem exists_stops (s : Search) (w : Work) :
    ∃ w' read m r, Relation.ReflTransGen s.Turns w w' ∧ s.Stops w' read m r := by
  induction w using (turns_wellFounded s).induction with
  | _ w ih =>
    rcases turns_or_stops s w with ⟨w₁, hturn⟩ | ⟨read, m, r, hstop⟩
    · obtain ⟨w', read, m, r, hrun, hstop⟩ := ih w₁ hturn
      exact ⟨w', read, m, r, .head hturn hrun, hstop⟩
    · exact ⟨w, read, m, r, .refl, hstop⟩

theorem exists_reads (s : Search) (file target : Path) (m : Targets) :
    ∃ read m' r, s.Reads file target m read m' r := by
  cases hm : m.get? file with
  | some there => exact ⟨_, _, _, .mapped hm⟩
  | none =>
      cases hd : s.directives file target with
      | error e => exact ⟨_, _, _, .unreadable hm hd⟩
      | ok ds =>
          obtain ⟨w, read, m', r, hrun, hstop⟩ := exists_stops s (start file target m ds)
          exact ⟨read, m', r, .looped hm hd hrun hstop⟩

/-! ## What a turn keeps -/

/-- The number of including lines of a document, if it can be read. -/
def directiveCount (s : Search) (file : Path) : Nat :=
  match Document.read s.tree file s.encoding with
  | .error _ => 0
  | .ok lines => lines.countP fun line =>
      (Reference.inclusion.grammar.match? (s.attributes.substitute line)).isSome

theorem directiveCount_eq {file target : Path} {ds : List Directive}
    (h : s.directives file target = .ok ds) : s.directiveCount file = ds.length := by
  rw [directives] at h
  rw [directiveCount]
  cases hread : Document.read s.tree file s.encoding with
  | error e => simp [hread, Except.map] at h
  | ok lines =>
      rw [hread, Except.map, Except.ok.injEq] at h
      rw [← h, List.length_filterMap_eq_countP]
      simp [Directive.ofLine?]

/-- What a turn keeps, if the search is one of `file` from the targets `m`: the documents that have
been read are those with new targets, and pages but for the first one. Each page but the first one,
and each directive on the agenda, stands for a directive in one of them. -/
structure Keeps (s : Search) (file : Path) (m : Targets) (w : Work) : Prop where
  keys : w.targets.keys = m.keys ++ w.read
  page : ∀ p ∈ w.read, p = file ∨ Document.isPage? s.tree p = .ok true
  size : w.draft.size + (w.outer.map OpenPage.size).sum + Task.followCount w.tasks ≤
    1 + (w.read.map s.directiveCount).sum

variable {file target : Path} {m m' : Targets} {w w' : Work} {read : List Path}
  {r : Except BuildError Page}

theorem start_keeps {ds : List Directive} (hnone : m.get? file = none)
    (hds : s.directives file target = .ok ds) : s.Keeps file m (start file target m ds) where
  keys := keys_insert_of_get?_eq_none hnone
  page p hp := .inl (List.mem_singleton.1 hp)
  size := by
    have hcount : Task.followCount (ds.map Task.follow) = ds.length := by
      simpa [Task.followCount] using Task.followCount_map ds []
    simp only [start, OpenPage.size, Page.sizeAll, hcount, List.map_cons, List.map_nil,
      List.sum_cons, List.sum_nil, directiveCount_eq hds]
    omega

theorem Turns.keeps (h : s.Turns w w') (hw : s.Keeps file m w) : s.Keeps file m w' := by
  obtain ⟨hkeys, hpage, hsize⟩ := hw
  cases h with
  | close =>
      refine ⟨hkeys, hpage, ?_⟩
      simp only [List.map_cons, List.sum_cons, Task.followCount_close] at hsize
      simp only [OpenPage.size_add, OpenPage.size_page]
      omega
  | closeLast => exact ⟨hkeys, hpage, hsize⟩
  | kept =>
      refine ⟨hkeys, hpage, ?_⟩
      simp only [Task.followCount_follow] at hsize ⊢
      omega
  | revisited =>
      refine ⟨hkeys, hpage, ?_⟩
      simp only [Task.followCount_follow] at hsize
      simp only [OpenPage.size_add, Page.size_leaf]
      omega
  | descended hp hnone hds =>
      refine ⟨?_, ?_, ?_⟩
      · rw [keys_insert_of_get?_eq_none hnone, hkeys, List.append_assoc]
      · intro p hmem
        rcases List.mem_append.1 hmem with hold | hnew
        · exact hpage p hold
        · rw [List.mem_singleton.1 hnew]
          exact .inr (isPage?_of_promotes? hp)
      · -- the directives of the new document pay for themselves, its page for the one followed
        simp only [Task.followCount_follow] at hsize
        simp only [Task.followCount_map, Task.followCount_close, OpenPage.size, Page.sizeAll,
          List.map_cons, List.sum_cons, List.map_append, List.sum_append, List.map_nil,
          List.sum_nil, directiveCount_eq hds] at hsize ⊢
        omega

/-- **What a turn keeps is kept to the end.** -/
theorem keeps_of_turns (h : Relation.ReflTransGen s.Turns w w') (hw : s.Keeps file m w) :
    s.Keeps file m w' := by
  induction h with
  | refl => exact hw
  | tail _ hturn ih => exact hturn.keeps ih

namespace Reads

theorem keys (h : s.Reads file target m read m' r) : m'.keys = m.keys ++ read := by
  cases h with
  | mapped => rw [List.append_nil]
  | unreadable hnone => exact keys_insert_of_get?_eq_none hnone
  | looped hnone hds hrun hstop =>
      have hkeys := (keeps_of_turns hrun (start_keeps hnone hds)).keys
      cases hstop with
      | finished | uncertain => exact hkeys
      | unreadable _ hlast => rw [keys_insert_of_get?_eq_none hlast, hkeys, List.append_assoc]

theorem page (h : s.Reads file target m read m' r) {p : Path} (hp : p ∈ read) :
    p = file ∨ Document.isPage? s.tree p = .ok true := by
  cases h with
  | mapped => exact absurd hp List.not_mem_nil
  | unreadable => exact .inl (List.mem_singleton.1 hp)
  | looped hnone hds hrun hstop =>
      have hpage := (keeps_of_turns hrun (start_keeps hnone hds)).page
      cases hstop with
      | finished | uncertain => exact hpage p hp
      | unreadable hpromotes =>
          rcases List.mem_append.1 hp with hold | hlast
          · exact hpage p hold
          · rw [List.mem_singleton.1 hlast]
            exact .inr (isPage?_of_promotes? hpromotes)

theorem size {page : Page} (h : s.Reads file target m read m' (.ok page)) :
    page.size ≤ 1 + (read.map s.directiveCount).sum := by
  cases h with
  | mapped => rw [Page.size_leaf]; omega
  | looped hnone hds hrun hstop =>
      have hsize := (keeps_of_turns hrun (start_keeps hnone hds)).size
      cases hstop with
      | finished =>
          rw [size_finish]
          exact Nat.le_trans (Nat.le_add_right _ _) hsize

end Reads

/-! ## The turns are those of the search -/

/-- What the loop comes to from here, if it may go into so many more documents. -/
def Work.outcome (s : Search) (n : Nat) (w : Work) :
    List Path × Targets × Except BuildError Page :=
  (s.runWithin n w.tasks w.draft w.outer w.targets).outcome w.read

/-- A turn does not change what the loop comes to. It counts if a document is read. -/
theorem Turns.outcome_eq (h : s.Turns w w') :
    ∃ k, w'.read.length = w.read.length + k ∧ ∀ n, w.outcome s (n + k) = w'.outcome s n := by
  cases h with
  | close => exact ⟨0, rfl, fun n => congrArg (Finding.outcome _) runWithin_close⟩
  | closeLast => exact ⟨0, rfl, fun n => by cases n <;> rfl⟩
  | kept hp =>
      refine ⟨0, rfl, fun n => ?_⟩
      simp only [Work.outcome, Nat.add_zero, runWithin_kept hp]
      exact Finding.outcome_after rfl
  | revisited hp hm =>
      refine ⟨0, rfl, fun n => ?_⟩
      simp only [Work.outcome, Nat.add_zero, runWithin_revisited hp hm]
      exact Finding.outcome_after rfl
  | descended hp hnone hds =>
      refine ⟨1, List.length_append, fun n => ?_⟩
      simp only [Work.outcome, runWithin_promoted hp hnone hds, Finding.afterAll_cons,
        Finding.afterAll_nil]
      rw [Finding.outcome_after rfl, Finding.outcome_after_entered]

theorem Stops.outcome_eq (h : s.Stops w read m' r) :
    ∃ k, read.length = w.read.length + k ∧ ∀ n, w.outcome s (n + k) = (read, m', r) := by
  cases h with
  | finished =>
      refine ⟨0, rfl, fun n => ?_⟩
      cases n <;> exact Finding.outcome_of_no_events _ _ _
  | uncertain hp =>
      refine ⟨0, rfl, fun n => ?_⟩
      cases n <;> simp only [Work.outcome, runWithin, run, hp, Finding.outcome_of_no_events]
  | unreadable hp hnone hds =>
      refine ⟨1, List.length_append, fun n => ?_⟩
      simp only [Work.outcome, runWithin, run, enter, hp, hnone, hds]
      rw [Finding.outcome_after rfl, Finding.outcome_after_entered, Finding.outcome_of_no_events]

/-- **The loop comes to where its turns lead**, if it may go into so many documents. -/
theorem outcome_of_turns (h : Relation.ReflTransGen s.Turns w w') (hstop : s.Stops w' read m' r) :
    ∃ k, read.length = w.read.length + k ∧ ∀ n, w.outcome s (n + k) = (read, m', r) := by
  induction h using Relation.ReflTransGen.head_induction_on with
  | refl => exact hstop.outcome_eq
  | head hturn _ ih =>
      obtain ⟨k, hlength, hrest⟩ := ih
      obtain ⟨k₁, hlength₁, hfirst⟩ := hturn.outcome_eq
      refine ⟨k + k₁, by omega, fun n => ?_⟩
      rw [← Nat.add_assoc, hfirst, hrest]

namespace Reads

theorem nodup (h : s.Reads file target m read m' r) : read.Nodup := by
  have hnodup : m'.keys.Nodup := m'.nodup
  rw [h.keys] at hnodup
  exact hnodup.of_append_right

/-- What is read had no target before. -/
theorem get?_eq_none (h : s.Reads file target m read m' r) {p : Path} (hp : p ∈ read) :
    m.get? p = none := by
  have hnodup : m'.keys.Nodup := m'.nodup
  rw [h.keys] at hnodup
  exact not_mem_keys_iff.1 fun hold => List.disjoint_of_nodup_append hnodup hold hp

/-- What is read, but for the first document, is a page. -/
theorem isPage? (h : s.Reads file target m read m' r) {p : Path} (hp : p ∈ read.erase file) :
    Document.isPage? s.tree p = .ok true := by
  obtain ⟨hne, hmem⟩ := (List.Nodup.mem_erase_iff h.nodup).1 hp
  exact (h.page hmem).resolve_left hne

/-- **Descents**: each, but for that into the first document, is into a page without a target. -/
theorem length_le (h : s.Reads file target m read m' r) :
    read.length ≤ (s.unmapped m).ncard + 1 := by
  have hsub : ((read.erase file).toFinset : Set Path) ⊆ s.unmapped m := by
    intro p hp
    rw [Finset.mem_coe, List.mem_toFinset] at hp
    exact ⟨h.isPage? hp, h.get?_eq_none (List.mem_of_mem_erase hp)⟩
  have hcard := Set.ncard_le_ncard hsub (finite_unmapped s m)
  rw [Set.ncard_coe_finset, List.toFinset_card_of_nodup (h.nodup.erase file)] at hcard
  have herase := @List.le_length_erase _ _ _ file read
  omega

/-- There are not so many short paths, so a search may go into all of them. -/
theorem length_le_documentBound (h : s.Reads file target m read m' r) :
    read.length ≤ documentBound := by
  have hshort : ∀ p ∈ read.erase file, p.toText.byteLength < pathLimit := fun p hp =>
    (refusal?_eq_none (refusal?_of_isPage? (h.isPage? hp))).2
  have hlt : (read.erase file).length < documentBound := by
    unfold documentBound
    exact length_lt_of_short (h.nodup.erase file) hshort
  have herase := @List.le_length_erase _ _ _ file read
  omega

/-- **The search does what its turns say.** -/
theorem collect_eq (h : s.Reads file target m read m' r) :
    (s.collect file target m).outcome [] = (read, m', r) := by
  have hbound := h.length_le_documentBound
  cases h with
  | mapped hm => rw [collect_of_mapped hm, Finding.outcome_of_no_events]
  | unreadable hnone hds =>
      simp only [collect_of_unmapped hnone, enter, hds]
      rw [Finding.outcome_after_entered, Finding.outcome_of_no_events, List.nil_append]
  | looped hnone hds hrun hstop =>
      obtain ⟨k, hlength, hall⟩ := outcome_of_turns hrun hstop
      simp only [collect_of_unmapped hnone, enter, hds, List.append_nil]
      rw [Finding.outcome_after_entered]
      -- the bound itself is never computed
      generalize documentBound = bound at hbound ⊢
      obtain ⟨n, rfl⟩ : ∃ n, bound = n + k := ⟨bound - k, by omega⟩
      exact hall n

end Reads

theorem reads_collect (s : Search) (file target : Path) (m : Targets) :
    s.Reads file target m (s.collect file target m).entered (s.collect file target m).targets
      (s.collect file target m).result := by
  obtain ⟨read, m', r, h⟩ := exists_reads s file target m
  obtain ⟨hread, hends⟩ := Prod.mk.inj h.collect_eq
  obtain ⟨rfl, rfl⟩ := Prod.mk.inj hends
  obtain rfl : (s.collect file target m).entered = read := hread
  exact h

/-! ## Each document once -/

/-- What a search reads, and how much: no document twice, and none that had a target. Each but the
first one is gone into as a page that had no target, and there are no more pages than directives in
these documents, and one. -/
structure ReadsOnce (s : Search) (file target : Path) (m : Targets) : Prop where
  ends : s.Reads file target m (s.collect file target m).entered (s.collect file target m).targets
    (s.collect file target m).result
  nodup : (s.collect file target m).entered.Nodup
  fresh : ∀ p ∈ (s.collect file target m).entered, m.get? p = none
  length_le : (s.collect file target m).entered.length ≤ (s.unmapped m).ncard + 1
  size_le : ∀ page, (s.collect file target m).result = .ok page →
    page.size ≤ 1 + ((s.collect file target m).entered.map s.directiveCount).sum

/-- **Every search comes to its end and reads no document twice**, whatever includes what: there is
no endless chain of turns, and only finitely many pages are without a target to begin with. The
search reads no more documents than these and one. -/
theorem collect_reads_once (s : Search) (file target : Path) (m : Targets) :
    WellFounded (fun w' w => s.Turns w w') ∧ (s.unmapped m).Finite ∧ s.ReadsOnce file target m := by
  have h := reads_collect s file target m
  refine ⟨turns_wellFounded s, finite_unmapped s m,
    h, h.nodup, fun p hp => h.get?_eq_none hp, h.length_le, fun page hpage => ?_⟩
  rw [hpage] at h
  exact h.size

/-- Two documents that include each other and themselves. -/
example : (knot.collect knotRoot default knotTargets).entered =
    [.ofText "/s/a.adoc".toList, .ofText "/s/b.adoc".toList] := by decide +kernel

end Search

end Folio

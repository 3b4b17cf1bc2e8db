import Folio.Proofs.Reach

/-!
# How targets come about

A search that ends with a page is a recursion over directives (`Search.Follows`). A search that
fails has given targets as well, up to the document where it failed. Both are covered by looking at
the targets alone: **they grow by one document at a time**, and each is the document of a directive
that stands in a document with a target.

* `Grows` has one rule, for one more target.
* `collect_grows`: the targets of every search grow from the target of its document.
* `Grows.origin`: so each document has a directive to which it owes its target.

The other direction needs the end of the search: `collect_promotions`, after a search that ends with
a page, whatever a document with a target promotes has one too.
-/

namespace Folio

namespace Search

variable {s : Search}

/-- The directive stands in a document that has a target. -/
def Pending (s : Search) (m : Targets) (d : Directive) : Prop :=
  ∃ file target ds, m.get? file = some target ∧ s.directives file target = .ok ds ∧ d ∈ ds

/-- The targets come from `m` by giving one document after another its target: that of a directive,
in a document with a target, which promotes one without. -/
inductive Grows (s : Search) (m : Targets) : Targets → Prop
  | refl : Grows s m m
  | step {m' : Targets} {d : Directive} : Grows s m m' → s.Pending m' d →
      d.promotes? s.tree = .ok true → m'.get? d.actual = none →
      Grows s m (m'.insert d.actual d.result)

theorem Pending.insert {m : Targets} {d : Directive} {a t : Path} (h : s.Pending m d)
    (ha : m.get? a = none) : s.Pending (m.insert a t) d := by
  obtain ⟨file, target, ds, hm, hds, hd⟩ := h
  exact ⟨file, target, ds, get?_insert_of_get?_eq_none ha hm, hds, hd⟩

theorem Grows.trans {m m' m'' : Targets} (h : s.Grows m m') (h' : s.Grows m' m'') :
    s.Grows m m'' := by
  induction h' with
  | refl => exact h
  | step _ hd hp hnone ih => exact .step ih hd hp hnone

/-! ## Every search grows its targets -/

/-- The agenda grows the targets if going into a document does. -/
theorem run_grows {enter : Directive → List Task → List OpenPage → Targets → Finding} {m₀ : Targets}
    (henter : ∀ d tasks outer m, s.Grows m₀ m → (∀ d', Task.follow d' ∈ tasks → s.Pending m d') →
      s.Pending m d → d.promotes? s.tree = .ok true → m.get? d.actual = none →
      s.Grows m₀ (enter d tasks outer m).targets)
    {tasks : List Task} {draft : OpenPage} {outer : List OpenPage} {m : Targets} (hm : s.Grows m₀ m)
    (htasks : ∀ d, Task.follow d ∈ tasks → s.Pending m d) :
    s.Grows m₀ (s.run enter tasks draft outer m).targets := by
  induction tasks generalizing draft outer m with
  | nil => exact hm
  | cons task tasks ih =>
    have hrest : ∀ d, Task.follow d ∈ tasks → s.Pending m d := fun d hd =>
      htasks d (List.mem_cons_of_mem _ hd)
    cases task with
    | close =>
      cases outer with
      | nil => exact ih hm hrest
      | cons o outer => exact ih hm hrest
    | follow d =>
      rw [run]
      split
      · exact hm
      · exact ih hm hrest
      · next hp =>
          split
          · exact ih hm hrest
          · next hnone =>
              refine henter d (.close :: tasks) (draft :: outer) m hm ?_
                (htasks d List.mem_cons_self) hp hnone
              intro d' hd'
              exact hrest d' (List.mem_of_ne_of_mem (by simp) hd')

/-- Going into a document puts its directives in front, and these are pending now. -/
theorem pending_enter {m : Targets} {d : Directive} {ds : List Directive} {tasks : List Task}
    (htasks : ∀ d', Task.follow d' ∈ tasks → s.Pending m d')
    (hds : s.directives d.actual d.result = .ok ds) (hnone : m.get? d.actual = none) :
    ∀ d', Task.follow d' ∈ ds.map .follow ++ tasks → s.Pending (m.insert d.actual d.result) d' := by
  intro d' hd'
  rcases List.mem_append.1 hd' with hin | hin
  · have hmem : d' ∈ ds := by simpa using hin
    exact ⟨d.actual, d.result, ds, by simp [OrderedMap.get?_insert], hds, hmem⟩
  · exact (htasks d' hin).insert hnone

theorem runWithin_grows {n : Nat} {m₀ : Targets} {tasks : List Task} {draft : OpenPage}
    {outer : List OpenPage} {m : Targets} (hm : s.Grows m₀ m)
    (htasks : ∀ d, Task.follow d ∈ tasks → s.Pending m d) :
    s.Grows m₀ (s.runWithin n tasks draft outer m).targets := by
  induction n generalizing tasks draft outer m with
  | zero =>
    rw [runWithin]
    apply run_grows _ hm htasks
    intro d tasks outer m hm _ _ _ _
    exact hm
  | succ n ih =>
    rw [runWithin]
    apply run_grows _ hm htasks
    intro d tasks outer m hm htasks hd hp hnone
    have hnew : s.Grows m₀ (m.insert d.actual d.result) := .step hm hd hp hnone
    rw [enter]
    split
    · exact hnew
    · next ds hds => exact ih hnew (pending_enter htasks hds hnone)

/-- **The targets of every search grow** from the target of its document, whether it ends with a
page or not. -/
theorem collect_grows {file target : Path} {m : Targets} (hroot : m.get? file = none) :
    s.Grows (m.insert file target) (s.collect file target m).targets := by
  have hbound : ∀ n, s.Grows (m.insert file target)
      (s.enter (s.runWithin n) file target [] [] m).targets := by
    intro n
    rw [enter]
    split
    · exact .refl
    · next ds hds =>
        apply runWithin_grows .refl
        intro d hd
        have hmem : d ∈ ds := by simpa using hd
        exact ⟨file, target, ds, by simp [OrderedMap.get?_insert], hds, hmem⟩
  rw [collect_of_unmapped hroot]
  exact hbound documentBound

/-! ## Where a target comes from -/

theorem Grows.get?_mono {m m' : Targets} (h : s.Grows m m') {p v : Path} (hp : m.get? p = some v) :
    m'.get? p = some v := by
  induction h with
  | refl => exact hp
  | step _ _ _ hnone ih => exact get?_insert_of_get?_eq_none hnone ih

/-- **Each new document is promoted** by a document with a target. -/
theorem Grows.origin {m m' : Targets} (h : s.Grows m m') {p : Path} (hp : p ∈ m'.keys)
    (hnew : p ∉ m.keys) :
    ∃ q ∈ m'.keys, ∃ qs, s.promotions q = .ok qs ∧ p ∈ qs := by
  induction h with
  | refl => exact absurd hp hnew
  | @step m' d _ hd hpage hnone ih =>
      rw [keys_insert_of_get?_eq_none hnone] at hp ⊢
      rcases List.mem_append.1 hp with hold | hadded
      · obtain ⟨q, hq, hpromoted⟩ := ih hold
        exact ⟨q, List.mem_append_left _ hq, hpromoted⟩
      · obtain rfl := List.mem_singleton.1 hadded
        obtain ⟨file, target, ds, hfile, hds, hmem⟩ := hd
        refine ⟨file, List.mem_append_left _ (mem_keys_of_get? hfile), _,
          promotions_of_directives hds, ?_⟩
        exact List.mem_filterMap.2 ⟨d, hmem, page?_of_promotes hpage⟩

theorem keys_enter (file target : Path) : ((.empty : Targets).insert file target).keys = [file] := rfl

/-- After a search that ends with a page, the documents that a document promotes have targets. -/
theorem collect_promotions {file target : Path} {page : Page}
    (hpage : (s.collect file target .empty).result = .ok page) {p : Path}
    (hp : p ∈ (s.collect file target .empty).targets.keys) :
    ∃ qs, s.promotions p = .ok qs ∧ ∀ q ∈ qs, q ∈ (s.collect file target .empty).targets.keys := by
  have hnone : OrderedMap.get? (.empty : Targets) file = none := OrderedMap.get?_empty file
  obtain ⟨ds, m', es, ts, hdir, hf, hcollect⟩ := collect_follows hnone hpage
  rw [hcollect] at hp ⊢
  exact hf.closed_enter hnone hdir hf.closed p hp (not_mem_keys_iff.2 (OrderedMap.get?_empty p))

/-- **A document has a target** just if it is the document of the search or some document with a
target promotes it. -/
theorem mem_collect_iff {file target : Path} {page : Page}
    (hpage : (s.collect file target .empty).result = .ok page) {p : Path} :
    p ∈ (s.collect file target .empty).targets.keys ↔
      p = file ∨ ∃ q ∈ (s.collect file target .empty).targets.keys,
        ∃ qs, s.promotions q = .ok qs ∧ p ∈ qs := by
  have hgrows : s.Grows ((.empty : Targets).insert file target)
      (s.collect file target .empty).targets := collect_grows (OrderedMap.get?_empty file)
  constructor
  · intro hp
    by_cases hfile : p = file
    · exact .inl hfile
    · refine .inr (hgrows.origin hp ?_)
      rw [keys_enter]
      simpa using hfile
  · rintro (rfl | ⟨q, hq, qs, hqs, hp⟩)
    · refine mem_keys_of_get? (hgrows.get?_mono (v := target) ?_)
      simp [OrderedMap.get?_insert]
    · obtain ⟨qs', hqs', hall⟩ := collect_promotions hpage hq
      rw [hqs, Except.ok.injEq] at hqs'
      exact hall p (hqs' ▸ hp)

end Search

end Folio

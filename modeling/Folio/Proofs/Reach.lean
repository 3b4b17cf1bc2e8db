import Folio.Proofs.Outline
import Mathlib.Logic.Relation

/-!
# Which documents a search finds

A document promotes the documents for which its lines make pages. Seen as a graph, a search from a
document without a target gives targets to **exactly the documents that can be reached** from it,
by steps to documents that had no target at the start.

A document is marked by its target before its lines are read, and a marked one is not gone into
again. No path is lost by this: `Follows` leaves behind targets that are closed, so whatever a new
document promotes has a target at the end, whichever occurrence of it came first.

Main result: `collect_maps_reachable`.
-/

namespace Folio

namespace Search

variable {s : Search}

/-! ## Promotions -/

/-- The document that a line of `file` makes a page of. -/
def promoted? (s : Search) (file : Path) (line : Text) : Option Path :=
  match Reference.inclusion.grammar.match? (s.attributes.substitute line) with
  | none => none
  | some m =>
      let actual := Document.refer file (Text.trim m.path)
      if Document.isMarked m.trailing then none
      else
        match Document.isPage? s.tree actual with
        | .ok true => some actual
        | _ => none

/-- The documents that the lines of a document make pages of, in the order of these lines. -/
def promotions (s : Search) (file : Path) : Except BuildError (List Path) :=
  (Document.read s.tree file s.encoding).map fun lines => lines.filterMap (s.promoted? file)

/-- Some line of the document `p` makes a page of the document `q`, which has no target in `m`. -/
def Leads (s : Search) (m : Targets) (p q : Path) : Prop :=
  (∃ qs, s.promotions p = .ok qs ∧ q ∈ qs) ∧ q ∉ m.keys

/-- The document of a directive, if it makes a page of it. -/
def page? (s : Search) (d : Directive) : Option Path :=
  match d.promotes? s.tree with
  | .ok true => some d.actual
  | _ => none

theorem page?_of_promotes {d : Directive} (h : d.promotes? s.tree = .ok true) :
    s.page? d = some d.actual := by
  simp [page?, h]

theorem page?_of_not_promotes {d : Directive} (h : d.promotes? s.tree = .ok false) :
    s.page? d = none := by
  simp [page?, h]

theorem promoted?_eq (file target : Path) (line : Text) :
    s.promoted? file line =
      (Directive.ofLine? s.tree.cwdPath file target (s.attributes.substitute line)).bind
        s.page? := by
  rw [promoted?, Directive.ofLine?]
  cases Reference.inclusion.grammar.match? (s.attributes.substitute line) with
  | none => rfl
  | some m =>
      simp only [Option.map_some, Option.bind_some, page?, Directive.promotes?]
      cases Document.isMarked m.trailing <;> rfl

/-- The directives of a document tell its promotions. -/
theorem promotions_of_directives {file target : Path} {ds : List Directive}
    (h : s.directives file target = .ok ds) :
    s.promotions file = .ok (ds.filterMap s.page?) := by
  rw [directives] at h
  rw [promotions]
  cases hread : Document.read s.tree file s.encoding with
  | error e => simp [hread, Except.map] at h
  | ok lines =>
      simp only [hread, Except.map, Except.ok.injEq] at h ⊢
      rw [← h, List.filterMap_filterMap]
      exact congrArg (lines.filterMap ·) (funext (promoted?_eq file target))

/-! ## Targets during a search -/

theorem get?_insert_of_get?_eq_none {m : Targets} {a t : Path} (ha : m.get? a = none) {p v : Path}
    (h : m.get? p = some v) : (m.insert a t).get? p = some v := by
  rw [OrderedMap.get?_insert, if_neg, h]
  rintro rfl
  rw [ha] at h
  exact absurd h (by simp)

/-- A target is never changed. -/
theorem Follows.get?_mono {m m' : Targets} {ds : List Directive} {es : List Event}
    {ts : List Outline} (h : s.Follows m ds m' es ts) {p v : Path} (hp : m.get? p = some v) :
    m'.get? p = some v := by
  induction h with
  | nil => exact hp
  | kept _ _ ih => exact ih hp
  | revisited _ _ _ ih => exact ih hp
  | promoted _ hm _ _ _ ih₁ ih₂ => exact ih₂ (ih₁ (get?_insert_of_get?_eq_none hm hp))

theorem not_mem_keys_iff {m : Targets} {p : Path} : p ∉ m.keys ↔ m.get? p = none := by
  rw [← OrderedMap.get?_isSome]
  cases m.get? p <;> simp

theorem mem_keys_of_get? {m : Targets} {p v : Path} (h : m.get? p = some v) : p ∈ m.keys :=
  OrderedMap.get?_isSome.1 (by simp [h])

theorem Follows.mem_keys_mono {m m' : Targets} {ds : List Directive} {es : List Event}
    {ts : List Outline} (h : s.Follows m ds m' es ts) {p : Path} (hp : p ∈ m.keys) :
    p ∈ m'.keys := by
  obtain ⟨v, hv⟩ := Option.isSome_iff_exists.1 (OrderedMap.get?_isSome.2 hp)
  exact mem_keys_of_get? (h.get?_mono hv)

theorem keys_insert_of_get?_eq_none {m : Targets} {a t : Path} (ha : m.get? a = none) :
    (m.insert a t).keys = m.keys ++ [a] := by
  simp [OrderedMap.keys_insert, OrderedMap.contains, ha]

theorem mem_keys_insert_of_mem {m : Targets} {a t : Path} (ha : m.get? a = none) {p : Path}
    (hp : p ∈ m.keys) : p ∈ (m.insert a t).keys := by
  rw [keys_insert_of_get?_eq_none ha]
  exact List.mem_append_left _ hp

theorem not_mem_keys_insert {m : Targets} {a t : Path} (ha : m.get? a = none) {p : Path}
    (hp : p ∉ m.keys) (hne : p ≠ a) : p ∉ (m.insert a t).keys := by
  rw [keys_insert_of_get?_eq_none ha]
  simp [hp, hne]

/-- New documents come after the old ones. -/
theorem Follows.keys_append {m m' : Targets} {ds : List Directive} {es : List Event}
    {ts : List Outline} (h : s.Follows m ds m' es ts) : ∃ added, m'.keys = m.keys ++ added := by
  induction h with
  | nil => exact ⟨[], by simp⟩
  | kept _ _ ih => exact ih
  | revisited _ _ _ ih => exact ih
  | @promoted _ _ _ d _ _ _ _ _ _ _ hm _ _ _ ih₁ ih₂ =>
      obtain ⟨added₁, h₁⟩ := ih₁
      obtain ⟨added₂, h₂⟩ := ih₂
      rw [keys_insert_of_get?_eq_none hm] at h₁
      exact ⟨d.actual :: (added₁ ++ added₂), by rw [h₂, h₁]; simp⟩

/-! ## Nothing is lost -/

/-- Every document that a directive makes a page of has a target at the end. -/
theorem Follows.page?_mem_keys {m m' : Targets} {ds : List Directive} {es : List Event}
    {ts : List Outline} (h : s.Follows m ds m' es ts) {p : Path}
    (hp : p ∈ ds.filterMap s.page?) : p ∈ m'.keys := by
  induction h with
  | nil => simp at hp
  | kept hd _ ih =>
      rw [List.filterMap_cons_none (page?_of_not_promotes hd)] at hp
      exact ih hp
  | revisited hd hm hf ih =>
      rw [List.filterMap_cons_some (page?_of_promotes hd)] at hp
      rcases List.mem_cons.1 hp with rfl | hp
      · exact hf.mem_keys_mono (mem_keys_of_get? hm)
      · exact ih hp
  | @promoted m _ _ d _ _ _ _ _ _ hd _ _ hf₁ hf₂ _ ih₂ =>
      rw [List.filterMap_cons_some (page?_of_promotes hd)] at hp
      rcases List.mem_cons.1 hp with rfl | hp
      · refine hf₂.mem_keys_mono (hf₁.mem_keys_mono ?_)
        exact mem_keys_of_get? (v := d.result) (by simp [OrderedMap.get?_insert])
      · exact ih₂ hp

/-- The targets `m'` are closed over `m`: whatever a new document promotes has a target. -/
def Closed (s : Search) (m m' : Targets) : Prop :=
  ∀ p ∈ m'.keys, p ∉ m.keys → ∃ qs, s.promotions p = .ok qs ∧ ∀ q ∈ qs, q ∈ m'.keys

/-- Following the directives of a new document closes the targets over those without it. -/
theorem Follows.closed_enter {m m' : Targets} {a t : Path} {ds : List Directive}
    {es : List Event} {ts : List Outline} (ha : m.get? a = none)
    (hdir : s.directives a t = .ok ds) (h : s.Follows (m.insert a t) ds m' es ts)
    (hclosed : s.Closed (m.insert a t) m') : s.Closed m m' := by
  intro p hp hnew
  by_cases hpa : p = a
  · subst hpa
    exact ⟨_, promotions_of_directives hdir, fun q hq => h.page?_mem_keys hq⟩
  · exact hclosed p hp (not_mem_keys_insert ha hnew hpa)

/-- **The targets are closed** after any directives. -/
theorem Follows.closed {m m' : Targets} {ds : List Directive} {es : List Event}
    {ts : List Outline} (h : s.Follows m ds m' es ts) : s.Closed m m' := by
  induction h with
  | nil => exact fun p hp hnew => absurd hp hnew
  | kept _ _ ih => exact ih
  | revisited _ _ _ ih => exact ih
  | @promoted m m₁ _ d _ _ _ _ _ _ _ hm hdir hf₁ hf₂ ih₁ ih₂ =>
      intro p hp hnew
      by_cases h₁ : p ∈ m₁.keys
      · obtain ⟨qs, hqs, hmem⟩ := hf₁.closed_enter hm hdir ih₁ p h₁ hnew
        exact ⟨qs, hqs, fun q hq => hf₂.mem_keys_mono (hmem q hq)⟩
      · exact ih₂ p hp h₁

/-! ## Nothing is found without a way to it -/

/-- More targets leave fewer ways. -/
theorem reflTransGen_leads_mono {m m' : Targets} (h : ∀ p ∈ m.keys, p ∈ m'.keys) {p q : Path}
    (hpq : Relation.ReflTransGen (s.Leads m') p q) : Relation.ReflTransGen (s.Leads m) p q :=
  Relation.ReflTransGen.mono (fun _ _ hl => ⟨hl.1, fun hq => hl.2 (h _ hq)⟩) _ _ hpq

/-- Every new document in `m'` is reached from one of these documents, which are new themselves. -/
def Reached (s : Search) (m m' : Targets) (starts : List Path) : Prop :=
  ∀ p ∈ m'.keys, p ∉ m.keys →
    ∃ q ∈ starts, q ∉ m.keys ∧ Relation.ReflTransGen (s.Leads m) q p

/-- What is reached from the promotions of a new document is reached from that document. -/
theorem reached_enter {m m' : Targets} {a t : Path} {ds : List Directive}
    (ha : m.get? a = none) (hdir : s.directives a t = .ok ds)
    (hreached : s.Reached (m.insert a t) m' (ds.filterMap s.page?)) : s.Reached m m' [a] := by
  intro p hp hnew
  refine ⟨a, List.mem_singleton_self a, not_mem_keys_iff.2 ha, ?_⟩
  by_cases hpa : p = a
  · rw [hpa]
  · have hsub := fun q => mem_keys_insert_of_mem (t := t) ha (p := q)
    obtain ⟨q, hq, hqnew, hway⟩ := hreached p hp (not_mem_keys_insert ha hnew hpa)
    have hfirst : s.Leads m a q :=
      ⟨⟨_, promotions_of_directives hdir, hq⟩, fun h => hqnew (hsub q h)⟩
    exact .head hfirst (reflTransGen_leads_mono hsub hway)

/-- A new document is reached from a document that some directive makes a page of. -/
theorem Follows.reached {m m' : Targets} {ds : List Directive} {es : List Event}
    {ts : List Outline} (h : s.Follows m ds m' es ts) :
    s.Reached m m' (ds.filterMap s.page?) := by
  induction h with
  | nil => exact fun p hp hnew => absurd hp hnew
  | kept hd _ ih =>
      rw [List.filterMap_cons_none (page?_of_not_promotes hd)]
      exact ih
  | revisited hd _ _ ih =>
      rw [List.filterMap_cons_some (page?_of_promotes hd)]
      intro p hp hnew
      obtain ⟨q, hq, hrest⟩ := ih p hp hnew
      exact ⟨q, List.mem_cons_of_mem _ hq, hrest⟩
  | @promoted m m₁ _ d _ _ _ _ _ _ hd hm hdir hf₁ _ ih₁ ih₂ =>
      rw [List.filterMap_cons_some (page?_of_promotes hd)]
      intro p hp hnew
      by_cases h₁ : p ∈ m₁.keys
      · obtain ⟨q, hq, hrest⟩ := reached_enter hm hdir ih₁ p h₁ hnew
        exact ⟨q, List.mem_cons.2 (.inl (List.mem_singleton.1 hq)), hrest⟩
      · have hsub : ∀ r ∈ m.keys, r ∈ m₁.keys := fun r hr =>
          hf₁.mem_keys_mono (mem_keys_insert_of_mem hm hr)
        obtain ⟨q, hq, hqnew, hway⟩ := ih₂ p hp h₁
        exact ⟨q, List.mem_cons_of_mem _ hq, fun h => hqnew (hsub q h),
          reflTransGen_leads_mono hsub hway⟩

/-! ## Exactly the reachable documents -/

/-- The keys behind the old ones are the new ones. -/
theorem mem_added_iff {m m' : Targets} {added : List Path} (h : m'.keys = m.keys ++ added)
    {p : Path} : p ∈ added ↔ p ∈ m'.keys ∧ p ∉ m.keys := by
  have hnodup : (m.keys ++ added).Nodup := h ▸ m'.nodup
  rw [h, List.mem_append]
  refine ⟨fun hp => ⟨.inr hp, fun hold => ?_⟩, fun hp => hp.1.resolve_left hp.2⟩
  exact (List.nodup_append.1 hnodup).2.2 p hold p hp rfl

theorem exists_ok_of_isOk {ε α : Type} {r : Except ε α} (h : r.isOk) : ∃ a, r = .ok a := by
  cases r with
  | error e => exact absurd h (by simp [Except.isOk, Except.toBool])
  | ok a => exact ⟨a, rfl⟩

/-- **A search finds exactly the reachable documents.** The documents that a search from `file` adds
to the targets, behind those that were there, are `file` and all documents that promotions lead to
from it through documents without a target in `m`. -/
theorem collect_maps_reachable {file target : Path} {m : Targets}
    (hroot : file ∉ m.keys) (hdone : (s.collect file target m).result.isOk) :
    ∃ added, (s.collect file target m).targets.keys = m.keys ++ added ∧
      ∀ p, p ∈ added ↔ Relation.ReflTransGen (s.Leads m) file p := by
  have hnone : m.get? file = none := not_mem_keys_iff.1 hroot
  obtain ⟨page, hpage⟩ := exists_ok_of_isOk hdone
  obtain ⟨ds, m', es, ts, hdir, hf, hcollect⟩ := collect_follows hnone hpage
  obtain ⟨added, hkeys⟩ := hf.keys_append
  rw [keys_insert_of_get?_eq_none hnone, List.append_assoc, List.singleton_append] at hkeys
  refine ⟨file :: added, by rw [hcollect]; exact hkeys, fun p => ?_⟩
  rw [mem_added_iff hkeys]
  constructor
  · rintro ⟨hp, hnew⟩
    obtain ⟨q, hq, -, hway⟩ := reached_enter hnone hdir hf.reached p hp hnew
    rwa [List.mem_singleton.1 hq] at hway
  · -- Along a way, every document is new, so the next one has a target as well.
    intro hway
    induction hway with
    | refl =>
        rw [hkeys]
        exact ⟨by simp, hroot⟩
    | @tail q r _ hqr ih =>
        obtain ⟨⟨qs, hqs, hr⟩, hrnew⟩ := hqr
        obtain ⟨qs', hqs', hclosed⟩ := hf.closed_enter hnone hdir hf.closed q ih.1 ih.2
        rw [hqs, Except.ok.injEq] at hqs'
        exact ⟨hclosed r (hqs' ▸ hr), hrnew⟩

/-- Documents that include themselves and each other. -/
def knot : Search :=
  ⟨.ofFiles [("/s/a.adoc", "include::b.adoc[]\ninclude::c.adoc[]\ninclude::b.adoc[]\n"),
      ("/s/b.adoc", "include::a.adoc[]\ninclude::b.adoc[]\ninclude::d.adoc[confluence=include]\n"),
      ("/s/c.adoc", "include::d.adoc[]\n"), ("/s/d.adoc", "")],
    .empty, "utf-8".toList⟩

/-- The document of the knot from which all are reached. -/
def knotRoot : Path := .ofText "/s/a.adoc".toList

/-- A target for the only document of the knot that promotes `d.adoc`. -/
def knotTargets : Targets := .insert .empty (.ofText "/s/c.adoc".toList) default

theorem knot_maps_reachable :
    (knotRoot ∉ knotTargets.keys ∧ (knot.collect knotRoot default knotTargets).result.isOk) ∧
    ∃ added, (knot.collect knotRoot default knotTargets).targets.keys =
        knotTargets.keys ++ added ∧
      ∀ p, p ∈ added ↔ Relation.ReflTransGen (knot.Leads knotTargets) knotRoot p :=
  have hroot : knotRoot ∉ knotTargets.keys := by decide +kernel
  have hdone : (knot.collect knotRoot default knotTargets).result.isOk := by decide +kernel
  ⟨⟨hroot, hdone⟩, collect_maps_reachable hroot hdone⟩

end Search

end Folio

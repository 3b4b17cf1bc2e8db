import Folio.Proofs.Reach

/-!
# What the tree of a search looks like

In the outline of a search, the nodes are read in the order in which they were made: a page before
its children, these before its next sibling. **The first node of a document has its promotions as
children**, one for each line that makes a page, in order and with repeats. Every later node of the
document is a leaf, and so is every node of a document that had a target before the search.

* `Expanded` says this of some nodes, given the documents that came before them.
* `Unfolds` says it of a whole outline, with the paths of its nodes and the order of the targets.
* `Unfolds.unique`: from one document there is just one outline of this form.

Main result: `collect_unfolds`, the page of a search comes from the one outline of this form.
-/

namespace Folio

namespace Search

variable {s : Search}

/-! ## Nodes in order -/

/-- Of these nodes, which come after the nodes of the documents `seen`, just the first one of each
document is expanded. -/
def Expanded (s : Search) : List Path → List Outline → Prop
  | _, [] => True
  | seen, n :: ns =>
      (if n.source ∈ seen then n.children = []
        else s.promotions n.source = .ok (n.children.map Outline.source)) ∧
      Expanded s (n.source :: seen) ns

theorem expanded_congr {seen seen' : List Path} (h : ∀ p, p ∈ seen ↔ p ∈ seen')
    (ns : List Outline) : s.Expanded seen ns ↔ s.Expanded seen' ns := by
  induction ns generalizing seen seen' with
  | nil => exact Iff.rfl
  | cons n ns ih =>
      have htail : ∀ p, p ∈ n.source :: seen ↔ p ∈ n.source :: seen' := by simp [h]
      rw [Expanded, Expanded, ih htail]
      simp only [h]

theorem expanded_append {seen : List Path} {ns ns' : List Outline} :
    s.Expanded seen (ns ++ ns') ↔
      s.Expanded seen ns ∧ s.Expanded (seen ++ ns.map Outline.source) ns' := by
  induction ns generalizing seen with
  | nil => simp [Expanded]
  | cons n ns ih =>
      rw [List.cons_append, Expanded, Expanded, ih, and_assoc]
      refine and_congr_right fun _ => and_congr_right fun _ => expanded_congr (fun p => ?_) ns'
      simp only [List.cons_append, List.mem_cons, List.mem_append, List.map_cons]
      exact or_left_comm

/-- The same, said of each node by what comes before it. -/
theorem expanded_iff {seen : List Path} {ns : List Outline} :
    s.Expanded seen ns ↔ ∀ before n after, ns = before ++ n :: after →
      if n.source ∈ seen ++ before.map Outline.source then n.children = []
      else s.promotions n.source = .ok (n.children.map Outline.source) := by
  constructor
  · rintro h before n after rfl
    exact (expanded_append.1 h).2.1
  · intro h
    induction ns generalizing seen with
    | nil => trivial
    | cons n ns ih =>
        refine ⟨by simpa using h [] n ns rfl, ih fun before n' after hns => ?_⟩
        have hn' := h (n :: before) n' after (by rw [hns, List.cons_append])
        have hmem : n'.source ∈ n.source :: seen ++ before.map Outline.source ↔
            n'.source ∈ seen ++ (n :: before).map Outline.source := by
          simp only [List.cons_append, List.mem_cons, List.mem_append, List.map_cons]
          exact or_left_comm
        simpa only [hmem] using hn'

/-! ## The outlines of a search -/

/-- The outline `t` unfolds the documents of a search from the targets `m` to the targets `m'`. The
first node of a document without a target at the start has a child for each of its promotions, in
order and with repeats, and every other node is a leaf. The path of a node is the target of its
document, and the targets are added in the order of the first nodes. -/
structure Unfolds (s : Search) (m m' : Targets) (t : Outline) : Prop where
  first : ∀ before n after, t.nodes = before ++ n :: after → n.source ∉ m.keys →
    n.source ∉ before.map Outline.source →
    s.promotions n.source = .ok (n.children.map Outline.source)
  leaf : ∀ before n after, t.nodes = before ++ n :: after →
    n.source ∈ m.keys ∨ n.source ∈ before.map Outline.source → n.children = []
  path : ∀ n ∈ t.nodes, m'.get? n.source = some n.path
  keys : m'.keys = (m.keys ++ t.nodes.map Outline.source).eraseDups

theorem unfolds_iff {m m' : Targets} {t : Outline} :
    s.Unfolds m m' t ↔ s.Expanded m.keys t.nodes ∧
      (∀ n ∈ t.nodes, m'.get? n.source = some n.path) ∧
      m'.keys = (m.keys ++ t.nodes.map Outline.source).eraseDups := by
  rw [expanded_iff]
  constructor
  · intro h
    refine ⟨fun before n after hn => ?_, h.path, h.keys⟩
    split
    · next hmem => exact h.leaf before n after hn (List.mem_append.1 hmem)
    · next hmem =>
        rw [List.mem_append, not_or] at hmem
        exact h.first before n after hn hmem.1 hmem.2
  · rintro ⟨hexp, hpath, hkeys⟩
    refine ⟨fun before n after hn hm hb => ?_, fun before n after hn hmem => ?_, hpath, hkeys⟩
    · have := hexp before n after hn
      rwa [if_neg (by simp [hm, hb])] at this
    · have := hexp before n after hn
      rwa [if_pos (List.mem_append.2 hmem)] at this

/-! ## The recursion makes such outlines -/

theorem eraseDups_of_nodup {xs : List Path} (h : xs.Nodup) : xs.eraseDups = xs := by
  induction xs with
  | nil => rfl
  | cons x xs ih =>
      obtain ⟨hx, hxs⟩ := List.nodup_cons.1 h
      have hfilter : xs.filter (fun y => !y == x) = xs := by
        refine List.filter_eq_self.2 fun y hy => ?_
        have hne : y ≠ x := fun heq => hx (heq ▸ hy)
        simp [hne]
      rw [List.eraseDups_cons, hfilter, ih hxs]

theorem eraseDups_append_of_mem {xs ys : List Path} {a : Path} (ha : a ∈ xs) :
    (xs ++ a :: ys).eraseDups = (xs ++ ys).eraseDups := by
  rw [List.eraseDups_append, List.eraseDups_append]
  simp [List.removeAll, ha]

theorem eraseDups_append_of_eq {xs ks : List Path} (hnodup : ks.Nodup) (hks : ks = xs.eraseDups)
    (ys : List Path) : (ks ++ ys).eraseDups = (xs ++ ys).eraseDups := by
  rw [List.eraseDups_append, List.eraseDups_append, eraseDups_of_nodup hnodup, hks]
  simp [List.removeAll, List.mem_eraseDups]

theorem Follows.sources {m m' : Targets} {ds : List Directive} {es : List Event}
    {ts : List Outline} (h : s.Follows m ds m' es ts) :
    ts.map Outline.source = ds.filterMap s.page? := by
  induction h with
  | nil => rfl
  | kept hd _ ih => rw [ih, List.filterMap_cons_none (page?_of_not_promotes hd)]
  | revisited hd _ _ ih =>
      rw [List.map_cons, ih, List.filterMap_cons_some (page?_of_promotes hd)]
      rfl
  | promoted hd _ _ _ _ _ ih₂ =>
      rw [List.map_cons, ih₂, List.filterMap_cons_some (page?_of_promotes hd)]
      rfl

/-- The targets that following some directives adds, in the order of the nodes. -/
theorem Follows.keys_eq {m m' : Targets} {ds : List Directive} {es : List Event}
    {ts : List Outline} (h : s.Follows m ds m' es ts) :
    m'.keys = (m.keys ++ (Outline.nodesAll ts).map Outline.source).eraseDups := by
  induction h with
  | @nil m => simp [Outline.nodesAll, eraseDups_of_nodup m.nodup, OrderedMap.keys]
  | kept _ _ ih => exact ih
  | revisited _ hm _ ih =>
      rw [ih, Outline.nodesAll, Outline.nodes, Outline.nodesAll]
      exact (eraseDups_append_of_mem (mem_keys_of_get? hm)).symm
  | @promoted _ m₁ _ _ _ _ _ _ _ _ _ hm _ _ _ ih₁ ih₂ =>
      have hnodup : m₁.keys.Nodup := m₁.nodup
      rw [ih₂, eraseDups_append_of_eq hnodup ih₁, keys_insert_of_get?_eq_none hm,
        Outline.nodesAll, Outline.nodes]
      simp [Outline.source]

theorem Follows.mem_keys_iff {m m' : Targets} {ds : List Directive} {es : List Event}
    {ts : List Outline} (h : s.Follows m ds m' es ts) {p : Path} :
    p ∈ m'.keys ↔ p ∈ m.keys ++ (Outline.nodesAll ts).map Outline.source := by
  rw [h.keys_eq, List.mem_eraseDups]

/-- The path of a node is the target that its document keeps. -/
theorem Follows.get?_source {m m' : Targets} {ds : List Directive} {es : List Event}
    {ts : List Outline} (h : s.Follows m ds m' es ts) {n : Outline}
    (hn : n ∈ Outline.nodesAll ts) : m'.get? n.source = some n.path := by
  induction h with
  | nil => simp [Outline.nodesAll] at hn
  | kept _ _ ih => exact ih hn
  | revisited _ hm hf ih =>
      rw [Outline.nodesAll, Outline.nodes, Outline.nodesAll] at hn
      rcases List.mem_cons.1 hn with rfl | hn
      · exact hf.get?_mono hm
      · exact ih hn
  | promoted _ hm _ hf₁ hf₂ ih₁ ih₂ =>
      rw [Outline.nodesAll, Outline.nodes] at hn
      rcases List.mem_append.1 hn with hn | hn
      · rcases List.mem_cons.1 hn with rfl | hn
        · refine hf₂.get?_mono (hf₁.get?_mono ?_)
          simp [OrderedMap.get?_insert, Outline.source, Outline.path]
        · exact hf₂.get?_mono (ih₁ hn)
      · exact ih₂ hn

/-- A document that is gone into is expanded, if the nodes of its children are. -/
theorem expanded_enter {m : Targets} {a t : Path} {ds : List Directive} {ts : List Outline}
    (ha : m.get? a = none) (hdir : s.directives a t = .ok ds)
    (hsources : ts.map Outline.source = ds.filterMap s.page?)
    (h : s.Expanded (m.insert a t).keys (Outline.nodesAll ts)) :
    s.Expanded m.keys (Outline.node a t ts).nodes := by
  rw [Outline.nodes, Expanded]
  refine ⟨?_, ?_⟩
  · show if a ∈ m.keys then ts = [] else s.promotions a = .ok (ts.map Outline.source)
    rw [if_neg (not_mem_keys_iff.2 ha), hsources]
    exact promotions_of_directives hdir
  · refine (expanded_congr (fun p => ?_) _).1 h
    simp [keys_insert_of_get?_eq_none ha, Outline.source, or_comm]

theorem Follows.expanded {m m' : Targets} {ds : List Directive} {es : List Event}
    {ts : List Outline} (h : s.Follows m ds m' es ts) :
    s.Expanded m.keys (Outline.nodesAll ts) := by
  induction h with
  | nil => trivial
  | kept _ _ ih => exact ih
  | @revisited m _ d _ _ ts there _ hm _ ih =>
      rw [Outline.nodesAll, Outline.nodes, Outline.nodesAll, List.singleton_append, Expanded]
      refine ⟨?_, (expanded_congr (fun p => ?_) _).1 ih⟩
      · show if d.actual ∈ m.keys then [] = [] else _
        rw [if_pos (mem_keys_of_get? hm)]
      · show p ∈ m.keys ↔ p ∈ d.actual :: m.keys
        rw [List.mem_cons]
        exact ⟨.inr, fun hp => hp.elim (fun heq => heq ▸ mem_keys_of_get? hm) id⟩
  | promoted _ hm hdir hf₁ _ ih₁ ih₂ =>
      rw [Outline.nodesAll, expanded_append]
      refine ⟨expanded_enter hm hdir hf₁.sources ih₁, (expanded_congr (fun p => ?_) _).1 ih₂⟩
      rw [hf₁.mem_keys_iff, keys_insert_of_get?_eq_none hm, Outline.nodes]
      simp [Outline.source]

/-! ## Only one outline -/

/-- Nodes of the same documents, expanded after the same ones, are the same. The induction is on the
number of nodes, since a node is followed by those below it. -/
theorem Expanded.unique {target? : Path → Option Path} {seen : List Path} {ts ts' : List Outline}
    (hsources : ts.map Outline.source = ts'.map Outline.source)
    (h : s.Expanded seen (Outline.nodesAll ts)) (h' : s.Expanded seen (Outline.nodesAll ts'))
    (hpath : ∀ n ∈ Outline.nodesAll ts, target? n.source = some n.path)
    (hpath' : ∀ n ∈ Outline.nodesAll ts', target? n.source = some n.path) : ts = ts' := by
  induction hk : (Outline.nodesAll ts).length using Nat.strongRecOn generalizing seen ts ts' with
  | _ k ih =>
    match ts, ts', hsources with
    | [], [], _ => rfl
    | .node a p cs :: us, .node a' p' cs' :: us', hsources =>
      obtain ⟨ha, hus⟩ := List.cons.inj hsources
      obtain rfl : a = a' := ha
      simp only [Outline.nodesAll, Outline.nodes, List.cons_append, Expanded,
        expanded_append] at h h'
      obtain ⟨hchildren, hcs, hrest⟩ := h
      obtain ⟨hchildren', hcs', hrest'⟩ := h'
      simp only [Outline.nodesAll, Outline.nodes, List.cons_append, List.length_cons,
        List.length_append] at hk
      have hmem : ∀ {n us cs p}, n ∈ Outline.nodesAll cs ∨ n ∈ Outline.nodesAll us →
          n ∈ Outline.nodesAll (.node a p cs :: us) := by
        intro n us cs p hn
        simp only [Outline.nodesAll, Outline.nodes, List.cons_append, List.mem_cons,
          List.mem_append]
        exact .inr hn
      have hcsource : cs.map Outline.source = cs'.map Outline.source := by
        change if a ∈ seen then cs = [] else s.promotions a = .ok (cs.map Outline.source)
          at hchildren
        change if a ∈ seen then cs' = [] else s.promotions a = .ok (cs'.map Outline.source)
          at hchildren'
        by_cases ha : a ∈ seen
        · rw [if_pos ha] at hchildren hchildren'
          rw [hchildren, hchildren']
        · rw [if_neg ha] at hchildren hchildren'
          rw [hchildren, Except.ok.injEq] at hchildren'
          exact hchildren'
      have hp : target? a = some p :=
        hpath (.node a p cs) (by simp [Outline.nodesAll, Outline.nodes])
      have hp' : target? a = some p' :=
        hpath' (.node a p' cs') (by simp [Outline.nodesAll, Outline.nodes])
      obtain rfl : p = p' := Option.some.inj (hp.symm.trans hp')
      obtain rfl : cs = cs' := ih _ (by omega) hcsource hcs hcs'
        (fun n hn => hpath n (hmem (.inl hn))) (fun n hn => hpath' n (hmem (.inl hn))) rfl
      obtain rfl : us = us' := ih _ (by omega) hus hrest hrest'
        (fun n hn => hpath n (hmem (.inr hn))) (fun n hn => hpath' n (hmem (.inr hn))) rfl
      rfl

/-- **From one document there is just one outline.** -/
theorem Unfolds.unique {m m' : Targets} {t t' : Outline} (h : s.Unfolds m m' t)
    (h' : s.Unfolds m m' t') (hsource : t.source = t'.source) : t = t' := by
  obtain ⟨hexp, hpath, -⟩ := unfolds_iff.1 h
  obtain ⟨hexp', hpath', -⟩ := unfolds_iff.1 h'
  have hall : ∀ t : Outline, Outline.nodesAll [t] = t.nodes := by simp [Outline.nodesAll]
  rw [← hall] at hexp hpath hexp' hpath'
  exact List.singleton_inj.1 (Expanded.unique (by simp [hsource]) hexp hexp' hpath hpath')

/-! ## The page of a search -/

/-- **The page of a search is the one that the recursion unfolds.** A search from a document without
a target ends with the page of the only outline from this document that unfolds its documents. -/
theorem collect_unfolds {file target : Path} {m : Targets} (hroot : file ∉ m.keys)
    (hdone : (s.collect file target m).result.isOk) :
    ∃ t : Outline, (s.collect file target m).result = .ok t.page ∧ t.source = file ∧
      s.Unfolds m (s.collect file target m).targets t ∧
      ∀ t' : Outline, t'.source = file → s.Unfolds m (s.collect file target m).targets t' →
        t' = t := by
  have hnone : m.get? file = none := not_mem_keys_iff.1 hroot
  obtain ⟨page, hpage⟩ := exists_ok_of_isOk hdone
  obtain ⟨ds, m', es, ts, hdir, hf, hcollect⟩ := collect_follows hnone hpage
  have hunfolds : s.Unfolds m m' (.node file target ts) := by
    refine unfolds_iff.2 ⟨expanded_enter hnone hdir hf.sources hf.expanded, fun n hn => ?_, ?_⟩
    · rcases List.mem_cons.1 hn with rfl | hn
      · exact hf.get?_mono (by simp [OrderedMap.get?_insert, Outline.source, Outline.path])
      · exact hf.get?_source hn
    · rw [hf.keys_eq, keys_insert_of_get?_eq_none hnone, Outline.nodes]
      simp [Outline.source]
  rw [hcollect]
  exact ⟨.node file target ts, rfl, rfl, hunfolds,
    fun t' hsource ht' => ht'.unique hunfolds hsource⟩

theorem knot_unfolds :
    (knotRoot ∉ knotTargets.keys ∧ (knot.collect knotRoot default knotTargets).result.isOk) ∧
    ∃ t : Outline, (knot.collect knotRoot default knotTargets).result = .ok t.page ∧
      t.source = knotRoot ∧
      knot.Unfolds knotTargets (knot.collect knotRoot default knotTargets).targets t ∧
      ∀ t' : Outline, t'.source = knotRoot →
        knot.Unfolds knotTargets (knot.collect knotRoot default knotTargets).targets t' → t' = t :=
  have hroot : knotRoot ∉ knotTargets.keys := by decide +kernel
  have hdone : (knot.collect knotRoot default knotTargets).result.isOk := by decide +kernel
  ⟨⟨hroot, hdone⟩, collect_unfolds hroot hdone⟩

end Search

end Folio

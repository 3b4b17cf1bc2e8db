import Folio.Proofs.Nested

/-!
# The search as a plain recursion

The search for included documents works off an agenda: it goes into a document, and what is left to
do after it waits on the agenda. Here the same search is told as a recursion over directives, whose
rules say what following them from given targets leads to.

**Outlines** (`Outline`). A page tree whose nodes remember the source document. The search itself
forgets it and keeps only the path of the copy.

**The recursion** (`Search.Follows`). A directive is passed over, adds a leaf, or adds a node below
which the directives of the promoted document are followed first.

**The agenda** (`runWithin_follows`). Working off the directives of a document, with anything behind
them on the agenda, either fails or does what the recursion says and goes on with what is behind.

Main result: `collect_follows`, a search that ends with a page has made it by the recursion.
-/

namespace Folio

/-! ## Outlines -/

/-- A page with the source of its document and the path of its copy. -/
inductive Outline where
  | node (source path : Path) (children : List Outline)

namespace Outline

def source : Outline → Path
  | node s _ _ => s

def path : Outline → Path
  | node _ p _ => p

def children : Outline → List Outline
  | node _ _ ts => ts

mutual

def page : Outline → Page
  | node _ p ts => .node p (pageAll ts)

def pageAll : List Outline → List Page
  | [] => []
  | t :: ts => page t :: pageAll ts

end

theorem pageAll_eq_map (ts : List Outline) : pageAll ts = ts.map page := by
  induction ts with
  | nil => rfl
  | cons t ts ih => simp [pageAll, ih]

theorem page_node (s p : Path) (ts : List Outline) :
    page (node s p ts) = .node p (ts.map page) := by
  rw [page, pageAll_eq_map]

mutual

/-- The nodes at and below a page: a page comes before its children, and these come before its next
sibling. -/
def nodes : Outline → List Outline
  | node s p ts => node s p ts :: nodesAll ts

/-- The nodes at and below some pages. -/
def nodesAll : List Outline → List Outline
  | [] => []
  | t :: ts => nodes t ++ nodesAll ts

end

end Outline

/-! ## The recursion -/

/-- Following these directives from the targets `m` leads to the targets `m'`, with these events and
outlines. The page of a document that has a target already is a leaf. One without gets its target,
and its own directives are followed before the next one. -/
inductive Search.Follows (s : Search) :
    Targets → List Directive → Targets → List Event → List Outline → Prop
  | nil {m : Targets} : Follows s m [] m [] []
  | kept {m m' : Targets} {d : Directive} {ds : List Directive} {es : List Event}
      {ts : List Outline} :
      d.promotes? s.tree = .ok false → Follows s m ds m' es ts →
      Follows s m (d :: ds) m' (.kept d.path d.actual d.file d.target :: es) ts
  | revisited {m m' : Targets} {d : Directive} {ds : List Directive} {es : List Event}
      {ts : List Outline} {there : Path} :
      d.promotes? s.tree = .ok true → m.get? d.actual = some there → Follows s m ds m' es ts →
      Follows s m (d :: ds) m' (.revisited d.path d.actual d.file d.target :: es)
        (.node d.actual there [] :: ts)
  | promoted {m m₁ m₂ : Targets} {d : Directive} {ds inner : List Directive}
      {es₁ es₂ : List Event} {ts₁ ts₂ : List Outline} :
      d.promotes? s.tree = .ok true → m.get? d.actual = none →
      s.directives d.actual d.result = .ok inner →
      Follows s (m.insert d.actual d.result) inner m₁ es₁ ts₁ → Follows s m₁ ds m₂ es₂ ts₂ →
      Follows s m (d :: ds) m₂
        (.promoted d.path d.actual d.result d.file d.target :: .entered d.actual d.result ::
          (es₁ ++ es₂))
        (.node d.actual d.result ts₁ :: ts₂)

/-! ## The agenda -/

/-- The draft with some more children. -/
def OpenPage.addAll (ts : List Outline) (d : OpenPage) : OpenPage :=
  { d with children := (ts.map Outline.page).reverse ++ d.children }

@[simp] theorem OpenPage.addAll_nil (d : OpenPage) : d.addAll [] = d := rfl

theorem OpenPage.addAll_cons (t : Outline) (ts : List Outline) (d : OpenPage) :
    d.addAll (t :: ts) = (d.add t.page).addAll ts := by
  simp [addAll, add]

theorem OpenPage.page_addAll (source path : Path) (ts : List Outline) :
    (OpenPage.addAll ts ⟨path, []⟩).page = (Outline.node source path ts).page := by
  simp [addAll, OpenPage.page, Outline.page_node]

/-- The finding with some events in front. -/
def Finding.afterAll (es : List Event) (f : Finding) : Finding :=
  { f with events := es ++ f.events }

@[simp] theorem Finding.afterAll_nil (f : Finding) : f.afterAll [] = f := rfl

theorem Finding.afterAll_cons (e : Event) (es : List Event) (f : Finding) :
    f.afterAll (e :: es) = (f.afterAll es).after e := rfl

@[simp] theorem Finding.result_after (e : Event) (f : Finding) :
    (f.after e).result = f.result := rfl

@[simp] theorem Finding.result_afterAll (es : List Event) (f : Finding) :
    (f.afterAll es).result = f.result := rfl

namespace Search

variable {s : Search}

section

-- The equations of a run are made here, once for all the lemmas that rewrite with them.
attribute [local simp] runWithin run

/-- One step of the agenda for each way in which a directive can be followed. -/
theorem runWithin_kept {n : Nat} {d : Directive} {tasks : List Task} {draft : OpenPage}
    {outer : List OpenPage} {m : Targets} (h : d.promotes? s.tree = .ok false) :
    s.runWithin n (.follow d :: tasks) draft outer m =
      (s.runWithin n tasks draft outer m).after (.kept d.path d.actual d.file d.target) := by
  cases n <;> rw [runWithin, run, h]

theorem runWithin_revisited {n : Nat} {d : Directive} {tasks : List Task} {draft : OpenPage}
    {outer : List OpenPage} {m : Targets} {there : Path} (h : d.promotes? s.tree = .ok true)
    (hm : m.get? d.actual = some there) :
    s.runWithin n (.follow d :: tasks) draft outer m =
      (s.runWithin n tasks (draft.add (.leaf there)) outer m).after
        (.revisited d.path d.actual d.file d.target) := by
  cases n <;> rw [runWithin, run, h] <;> simp only [hm]

theorem runWithin_promoted {n : Nat} {d : Directive} {tasks : List Task} {draft : OpenPage}
    {outer : List OpenPage} {m : Targets} {inner : List Directive}
    (h : d.promotes? s.tree = .ok true) (hm : m.get? d.actual = none)
    (hd : s.directives d.actual d.result = .ok inner) :
    s.runWithin (n + 1) (.follow d :: tasks) draft outer m =
      (s.runWithin n (inner.map .follow ++ .close :: tasks) ⟨d.result, []⟩ (draft :: outer)
        (m.insert d.actual d.result)).afterAll
          [.promoted d.path d.actual d.result d.file d.target, .entered d.actual d.result] := by
  rw [runWithin, run, h]
  simp only [hm, enter, hd]
  rfl

theorem runWithin_close {n : Nat} {tasks : List Task} {draft o : OpenPage} {outer : List OpenPage}
    {m : Targets} :
    s.runWithin n (.close :: tasks) draft (o :: outer) m =
      s.runWithin n tasks (o.add draft.page) outer m := by
  cases n <;> rw [runWithin, run]

/-- A directive that cannot be followed ends the search. -/
theorem runWithin_error {n : Nat} {d : Directive} {tasks : List Task} {draft : OpenPage}
    {outer : List OpenPage} {m : Targets} {f : Fault} (h : d.promotes? s.tree = .error f) :
    (s.runWithin n (.follow d :: tasks) draft outer m).result = .error (.uncertain f) := by
  cases n <;> rw [runWithin, run, h]

theorem runWithin_endless {d : Directive} {tasks : List Task} {draft : OpenPage} {outer : List OpenPage}
    {m : Targets} (h : d.promotes? s.tree = .ok true) (hm : m.get? d.actual = none) :
    (s.runWithin 0 (.follow d :: tasks) draft outer m).result = .error .endless := by
  rw [runWithin, run, h]
  simp only [hm]
  rfl

theorem runWithin_unreadable {n : Nat} {d : Directive} {tasks : List Task} {draft : OpenPage}
    {outer : List OpenPage} {m : Targets} {e : BuildError} (h : d.promotes? s.tree = .ok true)
    (hm : m.get? d.actual = none) (hd : s.directives d.actual d.result = .error e) :
    (s.runWithin (n + 1) (.follow d :: tasks) draft outer m).result = .error e := by
  rw [runWithin, run, h]
  simp only [hm, enter, hd]
  rfl

end

/-- What the agenda makes of some directives, whatever stands behind them: either it fails, or the
directives are followed and the search goes on with what is behind, into no more documents than it
had left. -/
def Splits (s : Search) (n : Nat) (ds : List Directive) (m : Targets) : Prop :=
  (∃ m' es ts, s.Follows m ds m' es ts ∧ ∃ n' ≤ n, ∀ tasks draft outer,
    s.runWithin n (ds.map .follow ++ tasks) draft outer m =
      (s.runWithin n' tasks (draft.addAll ts) outer m').afterAll es) ∨
  ∀ tasks draft outer, ∃ e,
    (s.runWithin n (ds.map .follow ++ tasks) draft outer m).result = .error e

theorem splits_nil (n : Nat) (m : Targets) : s.Splits n [] m :=
  .inl ⟨m, [], [], .nil, n, Nat.le_refl n, fun _ _ _ => rfl⟩

theorem splits_kept {n : Nat} {d : Directive} {ds : List Directive} {m : Targets}
    (h : d.promotes? s.tree = .ok false) (hds : s.Splits n ds m) : s.Splits n (d :: ds) m := by
  rcases hds with ⟨m', es, ts, hf, n', hn, hrun⟩ | herr
  · refine .inl ⟨m', _, ts, .kept h hf, n', hn, fun tasks draft outer => ?_⟩
    rw [List.map_cons, List.cons_append, runWithin_kept h, hrun, Finding.afterAll_cons]
  · refine .inr fun tasks draft outer => ?_
    rw [List.map_cons, List.cons_append, runWithin_kept h]
    exact herr tasks draft outer

theorem splits_revisited {n : Nat} {d : Directive} {ds : List Directive} {m : Targets}
    {there : Path} (h : d.promotes? s.tree = .ok true) (hm : m.get? d.actual = some there)
    (hds : s.Splits n ds m) : s.Splits n (d :: ds) m := by
  rcases hds with ⟨m', es, ts, hf, n', hn, hrun⟩ | herr
  · refine .inl ⟨m', _, _, .revisited h hm hf, n', hn, fun tasks draft outer => ?_⟩
    rw [List.map_cons, List.cons_append, runWithin_revisited h hm, hrun, Finding.afterAll_cons,
      OpenPage.addAll_cons, Outline.page_node]
    rfl
  · refine .inr fun tasks draft outer => ?_
    rw [List.map_cons, List.cons_append, runWithin_revisited h hm]
    exact herr tasks _ outer

theorem splits_promoted {n : Nat} {d : Directive} {ds inner : List Directive} {m : Targets}
    (h : d.promotes? s.tree = .ok true) (hm : m.get? d.actual = none)
    (hd : s.directives d.actual d.result = .ok inner)
    (hinner : s.Splits n inner (m.insert d.actual d.result))
    (hds : ∀ n' ≤ n, ∀ m', s.Splits n' ds m') : s.Splits (n + 1) (d :: ds) m := by
  rcases hinner with ⟨m₁, es₁, ts₁, hf₁, n₁, hn₁, hrun₁⟩ | herr
  · -- The document is done; its `close` makes it a child, and the next directives follow.
    have hstep : ∀ tasks draft outer,
        s.runWithin (n + 1) (Task.follow d :: (ds.map .follow ++ tasks)) draft outer m =
          ((s.runWithin n₁ (ds.map .follow ++ tasks)
            (draft.add (Outline.node d.actual d.result ts₁).page) outer m₁).afterAll es₁).afterAll
              [.promoted d.path d.actual d.result d.file d.target, .entered d.actual d.result] := by
      intro tasks draft outer
      rw [runWithin_promoted h hm hd, hrun₁, runWithin_close, OpenPage.page_addAll d.actual]
    rcases hds n₁ hn₁ m₁ with ⟨m₂, es₂, ts₂, hf₂, n₂, hn₂, hrun₂⟩ | herr
    · refine .inl ⟨m₂, _, _, .promoted h hm hd hf₁ hf₂, n₂, by omega, fun tasks draft outer => ?_⟩
      rw [List.map_cons, List.cons_append, hstep, hrun₂, OpenPage.addAll_cons]
      simp [Finding.afterAll]
    · refine .inr fun tasks draft outer => ?_
      rw [List.map_cons, List.cons_append, hstep]
      exact herr tasks _ outer
  · refine .inr fun tasks draft outer => ?_
    rw [List.map_cons, List.cons_append, runWithin_promoted h hm hd]
    exact herr _ _ _

/-- **The agenda is the recursion.** -/
theorem runWithin_follows (n : Nat) (ds : List Directive) (m : Targets) : s.Splits n ds m := by
  induction n using Nat.strongRecOn generalizing ds m with
  | _ n ihn =>
    -- The number of documents falls only when one is gone into, so the directives of one
    -- document are an induction of their own.
    induction ds generalizing m with
    | nil => exact splits_nil n m
    | cons d ds ihds =>
      cases hp : d.promotes? s.tree with
      | error f => exact .inr fun tasks draft outer => ⟨_, runWithin_error hp⟩
      | ok promotes =>
        cases promotes with
        | false => exact splits_kept hp (ihds m)
        | true =>
          cases hm : m.get? d.actual with
          | some there => exact splits_revisited hp hm (ihds m)
          | none =>
            cases n with
            | zero => exact .inr fun tasks draft outer => ⟨_, runWithin_endless hp hm⟩
            | succ n =>
              cases hd : s.directives d.actual d.result with
              | error e => exact .inr fun tasks draft outer => ⟨_, runWithin_unreadable hp hm hd⟩
              | ok inner =>
                exact splits_promoted hp hm hd (ihn n (by omega) inner _)
                  fun n' hn' m' => ihn n' (by omega) ds m'

/-- **A search is the recursion.** If the search of a document without a target ends with a page,
its directives have been followed, and the page is the outline made on the way. -/
theorem collect_follows {file target : Path} {m : Targets} {page : Page}
    (hroot : m.get? file = none) (hpage : (s.collect file target m).result = .ok page) :
    ∃ ds m' es ts, s.directives file target = .ok ds ∧
      s.Follows (m.insert file target) ds m' es ts ∧
      s.collect file target m =
        ⟨m', .entered file target :: es, .ok (Outline.node file target ts).page⟩ := by
  cases hd : s.directives file target with
  | error e => simp [collect_of_unmapped hroot, enter, hd, Finding.after] at hpage
  | ok ds =>
    have hrun : s.collect file target m =
        (s.runWithin documentBound (ds.map .follow ++ []) ⟨target, []⟩ []
          (m.insert file target)).after (.entered file target) := by
      simp only [collect_of_unmapped hroot, enter, hd]
    rcases runWithin_follows (s := s) documentBound ds (m.insert file target) with
      ⟨m', es, ts, hf, n', -, hsplit⟩ | herr
    · refine ⟨ds, m', es, ts, rfl, hf, ?_⟩
      rw [hrun, hsplit]
      cases n' <;> simp [runWithin, run, finish, OpenPage.page_addAll file, Finding.after,
        Finding.afterAll]
    · obtain ⟨e, he⟩ := herr [] ⟨target, []⟩ []
      rw [hrun, Finding.result_after, he] at hpage
      exact absurd hpage (by simp)

end Search

end Folio

import Folio.FileTree.Change
import Folio.Settings

/-!
# The last assignment of a name

Attributes come from a file and from the command line, where a name may be assigned several times.
They are substituted one after another, so both the place of a name and its value can be seen in
the result. **A name keeps its first place over both sources and has its last value**
(`Entries.latest`).

Assignments may be added to a map one by one, or be made a map of their own that updates the other
one. This makes no difference (`OrderedMap.insertAll_ofList`), for where a name stands and what its
value is are both settled by the list of all entries.

Main result: `Settings.resolve_updates`.
-/

namespace Folio

/-! ## First places and last values -/

namespace Entries

variable {α β : Type} [DecidableEq α]

/-- Each key of some entries once, at its first place, with its last value. -/
def latest : List (α × β) → List (α × β)
  | [] => []
  | e :: es => (e.1, (get? e.1 es.reverse).getD e.2) :: (latest es).filter fun f => f.1 ≠ e.1

theorem get?_append (k : α) (es fs : List (α × β)) :
    get? k (es ++ fs) = (get? k es).or (get? k fs) := by
  induction es with
  | nil => rfl
  | cons e es ih =>
      rw [List.cons_append, get?, get?, ih]
      split <;> rfl

/-- The value of a key is its last one. -/
theorem get?_latest (k : α) (es : List (α × β)) : get? k (latest es) = get? k es.reverse := by
  induction es with
  | nil => rfl
  | cons e es ih =>
      have hrest := get?_filter (fun a => decide (a ≠ e.1)) k (latest es)
      rw [latest, List.reverse_cons, get?_append, get?, get?, get?, hrest, ih]
      by_cases hk : e.1 = k
      · rw [if_pos hk, if_pos hk, hk, Option.or_some]
      · simp [hk, Ne.symm hk]

theorem nodup_latest (es : List (α × β)) : ((latest es).map Prod.fst).Nodup := by
  induction es with
  | nil => exact List.nodup_nil
  | cons e es ih =>
      rw [latest, List.map_cons, List.nodup_cons]
      exact ⟨by simp, ih.sublist (List.filter_sublist.map _)⟩

theorem latest_of_nodup {es : List (α × β)} (h : (es.map Prod.fst).Nodup) : latest es = es := by
  induction es with
  | nil => rfl
  | cons e es ih =>
      rw [List.map_cons, List.nodup_cons] at h
      have hnone : get? e.1 es.reverse = none := by
        rw [← Option.not_isSome_iff_eq_none, get?_isSome]
        simpa using h.1
      have hall : ∀ f ∈ es, decide (f.1 ≠ e.1) = true := fun f hf =>
        decide_eq_true fun heq => h.1 (List.mem_map.2 ⟨f, hf, heq⟩)
      rw [latest, ih h.2, hnone, List.filter_eq_self.2 hall]
      rfl

theorem get?_reverse {es : List (α × β)} (h : (es.map Prod.fst).Nodup) (k : α) :
    get? k es.reverse = get? k es := by
  rw [← get?_latest, latest_of_nodup h]

theorem filter_insert_self (k : α) (v : β) (es : List (α × β)) :
    (insert k v es).filter (fun f => f.1 ≠ k) = es.filter fun f => f.1 ≠ k := by
  induction es with
  | nil => simp [insert]
  | cons e es ih =>
      rw [insert]
      split
      · next h => rw [List.filter_cons_of_neg (by simp), List.filter_cons_of_neg (by simp [h])]
      · rw [List.filter_cons, List.filter_cons, ih]

theorem filter_insert_of_ne {k l : α} (h : k ≠ l) (v : β) (es : List (α × β)) :
    (insert k v es).filter (fun f => f.1 ≠ l) = insert k v (es.filter fun f => f.1 ≠ l) := by
  induction es with
  | nil => simp [insert, h]
  | cons e es ih =>
      rw [insert]
      split
      · next hk =>
          rw [List.filter_cons_of_pos (by simp [h]), List.filter_cons_of_pos (by simp [hk, h]),
            insert, if_pos hk]
      · next hk =>
          rw [List.filter_cons, List.filter_cons, ih]
          split
          · rw [insert, if_neg hk]
          · rfl

/-- **One more entry is inserted**: its key has a place already, or comes last. -/
theorem latest_concat (es : List (α × β)) (e : α × β) :
    latest (es ++ [e]) = insert e.1 e.2 (latest es) := by
  induction es with
  | nil => rfl
  | cons f es ih =>
      rw [List.cons_append, latest, ih, List.reverse_append, List.reverse_singleton, get?_append,
        get?, latest, insert]
      by_cases h : e.1 = f.1
      · rw [if_pos h, if_pos h.symm, h, filter_insert_self]
        rfl
      · rw [if_neg h, if_neg (Ne.symm h), filter_insert_of_ne h]
        rfl

/-- What has been settled among some entries stays so behind others. -/
theorem latest_append_latest (es fs : List (α × β)) :
    latest (es ++ latest fs) = latest (es ++ fs) := by
  induction es with
  | nil => exact latest_of_nodup (nodup_latest fs)
  | cons e es ih =>
      rw [List.cons_append, List.cons_append, latest, latest, ih, List.reverse_append,
        List.reverse_append, get?_append, get?_append, get?_reverse (nodup_latest fs), get?_latest]

end Entries

namespace OrderedMap

variable {α β : Type}

theorem eq_of_entries {m m' : OrderedMap α β} (h : m.entries = m'.entries) : m = m' := by
  cases m
  cases m'
  exact (OrderedMap.mk.injEq ..).mpr h

variable [DecidableEq α]

/-- A map that holds what is latest among some entries does so after more of them. -/
theorem entries_insertAll_of_latest {m : OrderedMap α β} {fs : List (α × β)}
    (h : m.entries = Entries.latest fs) (es : List (α × β)) :
    (m.insertAll es).entries = Entries.latest (fs ++ es) := by
  induction es generalizing m fs with
  | nil => rwa [List.append_nil]
  | cons e es ih =>
      have hstep : (m.insert e.1 e.2).entries = Entries.latest (fs ++ [e]) := by
        rw [Entries.latest_concat, ← h]
        rfl
      rw [List.append_cons, ← ih hstep]
      rfl

/-- **What a map holds after some insertions.** -/
theorem entries_insertAll (m : OrderedMap α β) (es : List (α × β)) :
    (m.insertAll es).entries = Entries.latest (m.entries ++ es) :=
  entries_insertAll_of_latest (Entries.latest_of_nodup m.nodup).symm es

theorem entries_ofList (es : List (α × β)) :
    (ofList es : OrderedMap α β).entries = Entries.latest es :=
  entries_insertAll empty es

/-- **A list may be made a map first**, which then updates the other one. -/
theorem insertAll_ofList (m : OrderedMap α β) (es : List (α × β)) :
    m.insertAll (ofList es).entries = m.insertAll es := by
  refine eq_of_entries ?_
  rw [entries_insertAll, entries_insertAll, entries_ofList, Entries.latest_append_latest]

end OrderedMap

/-! ## Assignments -/

namespace Assignment

/-- There is only white space in front of the first sign of equality, or at all. -/
def Nameless (s : Text) : Prop := ∀ c ∈ s.takeWhile (· != '='), isBlank c = true

instance (s : Text) : Decidable (Nameless s) :=
  List.decidableBAll (fun c => isBlank c = true) (s.takeWhile (· != '='))

/-- The name and the value of an assignment. -/
def entry (s : Text) : Text × Text := (name s, value s)

variable {s : Text} {items : List Text} {es : List (Text × Text)}

section

-- The equations are made here, once for all the lemmas that rewrite with them.
attribute [local simp] readAll

theorem readAll_of_nameless (h : Nameless s) (rest : List Text) :
    readAll (s :: rest) = .error s := by
  rw [readAll, read?_eq_none_iff.2 h]

theorem readAll_of_not_nameless (h : ¬ Nameless s) (rest : List Text) :
    readAll (s :: rest) = (readAll rest).map (entry s :: ·) := by
  have hname : name s ≠ [] := by
    rintro hnil
    exact h (read?_eq_none_iff.1 (if_pos hnil))
  have hread : read? s = some (entry s) := if_neg hname
  rw [readAll, hread]

end

theorem readAll_append (xs ys : List Text) :
    readAll (xs ++ ys) = do return (← readAll xs) ++ (← readAll ys) := by
  induction xs with
  | nil =>
      cases h : readAll ys <;> simp [readAll, h, bind, Except.bind, pure, Except.pure]
  | cons x xs ih =>
      by_cases hx : Nameless x
      · rw [List.cons_append, readAll_of_nameless hx, readAll_of_nameless hx]
        rfl
      · rw [List.cons_append, readAll_of_not_nameless hx, readAll_of_not_nameless hx, ih]
        cases readAll xs with
        | error e => rfl
        | ok es => cases readAll ys <;> rfl

theorem readAll_eq_ok_iff :
    readAll items = .ok es ↔ (∀ x ∈ items, ¬ Nameless x) ∧ es = items.map entry := by
  induction items generalizing es with
  | nil => simp [readAll, eq_comm]
  | cons x xs ih =>
      by_cases hx : Nameless x
      · simp [readAll_of_nameless hx, hx]
      · rw [readAll_of_not_nameless hx, List.forall_mem_cons, List.map_cons]
        constructor
        · intro h
          cases hrest : readAll xs with
          | error e => simp [hrest, Except.map] at h
          | ok fs =>
              rw [hrest] at h
              obtain ⟨hxs, rfl⟩ := ih.1 hrest
              exact ⟨⟨hx, hxs⟩, (Except.ok.inj h).symm⟩
        · rintro ⟨⟨-, hxs⟩, rfl⟩
          rw [ih.2 ⟨hxs, rfl⟩]
          rfl

/-- **The first assignment without a name is refused.** -/
theorem readAll_eq_error_iff {item : Text} :
    readAll items = .error item ↔
      ∃ before after, items = before ++ item :: after ∧ (∀ x ∈ before, ¬ Nameless x) ∧
        Nameless item := by
  induction items with
  | nil => simp [readAll]
  | cons x xs ih =>
      constructor
      · intro h
        by_cases hx : Nameless x
        · rw [readAll_of_nameless hx] at h
          obtain rfl := Except.error.inj h
          exact ⟨[], xs, rfl, by simp, hx⟩
        · rw [readAll_of_not_nameless hx] at h
          cases hrest : readAll xs with
          | ok fs => simp [hrest, Except.map] at h
          | error e =>
              rw [hrest] at h
              obtain rfl := Except.error.inj h
              obtain ⟨before, after, rfl, hbefore, hitem⟩ := ih.1 hrest
              exact ⟨x :: before, after, rfl, List.forall_mem_cons.2 ⟨hx, hbefore⟩, hitem⟩
      · rintro ⟨before, after, hitems, hbefore, hitem⟩
        have hall := readAll_append before (item :: after)
        rw [readAll_eq_ok_iff.2 ⟨hbefore, rfl⟩, readAll_of_nameless hitem, ← hitems] at hall
        exact hall

end Assignment

namespace Attributes

variable {a b : Attributes} {items : List Text}

theorem assign_eq_ok_iff :
    a.assign items = .ok b ↔
      (∀ x ∈ items, ¬ Assignment.Nameless x) ∧
        b.entries = Entries.latest (a.entries ++ items.map Assignment.entry) := by
  rw [assign]
  constructor
  · intro h
    cases hread : Assignment.readAll items with
    | error e => simp [hread, Except.map] at h
    | ok es =>
        rw [hread] at h
        obtain rfl := Except.ok.inj h
        obtain ⟨hnames, rfl⟩ := Assignment.readAll_eq_ok_iff.1 hread
        exact ⟨hnames, OrderedMap.entries_insertAll a _⟩
  · rintro ⟨hnames, hb⟩
    rw [Assignment.readAll_eq_ok_iff.2 ⟨hnames, rfl⟩]
    exact congrArg Except.ok <|
      OrderedMap.eq_of_entries ((OrderedMap.entries_insertAll a _).trans hb.symm)

theorem assign_eq_error_iff {item : Text} :
    a.assign items = .error item ↔ Assignment.readAll items = .error item := by
  rw [assign]
  cases Assignment.readAll items <;> simp [Except.map]

/-- Assignments by themselves make attributes, which then update other ones. -/
theorem assign_eq_update (a : Attributes) (items : List Text) :
    a.assign items = (assign .empty items).map fun b => a.insertAll b.entries := by
  rw [assign, assign]
  cases Assignment.readAll items with
  | error e => rfl
  | ok es => exact congrArg Except.ok (OrderedMap.insertAll_ofList a es).symm

/-- **Assignments behind others** update what these have made. -/
theorem assign_append (a : Attributes) (xs ys : List Text) :
    a.assign (xs ++ ys) = (a.assign xs).bind fun b => b.assign ys := by
  rw [assign, Assignment.readAll_append, assign]
  cases Assignment.readAll xs with
  | error e => rfl
  | ok es =>
      change _ = assign (a.insertAll es) ys
      rw [assign]
      cases Assignment.readAll ys with
      | error e => rfl
      | ok fs => exact congrArg Except.ok List.foldl_append

end Attributes

/-! ## Two sources -/

namespace Settings

open Assignment

theorem message?_assignment (item : Text) :
    ∃ before after, (SettingsError.assignment item).message? =
      some (before ++ SettingsError.quoted item ++ after) :=
  ⟨_, _, rfl⟩

theorem resolve_of_load {homes : Homes} {t : FileTree} {c : Choices} {lib : Library} {file : Path}
    {s : Settings} (hfile : c.file = some file) (hload : load homes t file lib = .ok s) :
    resolve homes t c lib =
      match Attributes.assign .empty c.assignments with
      | .error item => .error (.assignment item)
      | .ok b => .ok
          { source := c.source.getD s.source
            workingDir := c.workingDir.getD s.workingDir
            encoding := c.encoding.getD s.encoding
            attributes := s.attributes.insertAll b.entries
            skip := s.skip } := by
  have hstart : start homes t c lib = .ok { s with source := c.source.getD s.source } := by
    simp [start, hfile, hload, bind, Except.bind, pure, Except.pure]
  rw [resolve, hstart]
  change (match s.attributes.assign c.assignments with | .error _ => _ | .ok _ => _) = _
  rw [Attributes.assign_eq_update]
  cases Attributes.assign .empty c.assignments <;> rfl

/-- **What is assigned last is what counts, in the place where it was first assigned.** Assignments
behind others update the attributes that these make. The first one without a name is refused, and is
quoted. The choices of the command line replace what the file says, and its assignments update the
attributes of the file, so that in any line each name of both is substituted once, in the order of
their first places and with their last values. -/
theorem resolve_updates :
    (∀ xs ys : List Text, Attributes.assign .empty (xs ++ ys) = do
      let a ← Attributes.assign .empty xs
      let b ← Attributes.assign .empty ys
      return a.insertAll b.entries) ∧
    (∀ (items : List Text) (b : Attributes), Attributes.assign .empty items = .ok b ↔
      (∀ x ∈ items, ¬ Nameless x) ∧ b.entries = Entries.latest (items.map entry)) ∧
    (∀ (items : List Text) (item : Text), Attributes.assign .empty items = .error item ↔
      ∃ before after, items = before ++ item :: after ∧ (∀ x ∈ before, ¬ Nameless x) ∧
        Nameless item) ∧
    (∀ item : Text, ∃ before after, (SettingsError.assignment item).message? =
      some (before ++ SettingsError.quoted item ++ after)) ∧
    ∀ (homes : Homes) (t : FileTree) (c : Choices) (lib : Library) (file : Path) (s : Settings),
      c.file = some file → load homes t file lib = .ok s →
      (∀ item, resolve homes t c lib = .error (.assignment item) ↔
        Attributes.assign .empty c.assignments = .error item) ∧
      ∀ b, Attributes.assign .empty c.assignments = .ok b →
        resolve homes t c lib = .ok
          { source := c.source.getD s.source
            workingDir := c.workingDir.getD s.workingDir
            encoding := c.encoding.getD s.encoding
            attributes := s.attributes.insertAll b.entries
            skip := s.skip } ∧
        ∀ line, Attributes.substitute (s.attributes.insertAll b.entries) line =
          Attributes.substituteAll
            (Entries.latest (s.attributes.entries ++ c.assignments.map entry)) line := by
  refine ⟨fun xs ys => ?_, fun _ _ => Attributes.assign_eq_ok_iff, fun _ _ =>
    Attributes.assign_eq_error_iff.trans readAll_eq_error_iff, message?_assignment, ?_⟩
  · rw [Attributes.assign_append]
    refine bind_congr (x := Attributes.assign .empty xs) fun a => ?_
    rw [Attributes.assign_eq_update]
    cases Attributes.assign .empty ys <;> rfl
  · intro homes t c lib file s hfile hload
    have hresolve := resolve_of_load hfile hload
    constructor
    · intro item
      rw [hresolve]
      cases Attributes.assign .empty c.assignments <;> simp
    · intro b hb
      rw [hb] at hresolve
      refine ⟨hresolve, fun line => ?_⟩
      have hentries : b.entries = Entries.latest (c.assignments.map entry) :=
        (Attributes.assign_eq_ok_iff.1 hb).2
      rw [Attributes.substitute, OrderedMap.entries_insertAll, hentries,
        Entries.latest_append_latest]

/-- A file that says where the documents of a product are. -/
def widgetTree : FileTree := .ofFiles [("/docs/pages.yaml",
  "source: src\nattributes:\n  version: 1\n  product: Widget \x7bversion\x7d\n")]

/-- Another source, and assignments of which one is taken back. -/
def widgetChoices : Choices :=
  ⟨some (.ofText "/docs/pages.yaml".toList), some (.ofText "/other".toList), none,
    some "latin-1".toList, ["edition=old".toList, " version = 2=3".toList, "edition".toList]⟩

theorem resolve_updates_widget :
    let homes : Homes := fun _ => none
    let file : Path := .ofText "/docs/pages.yaml".toList
    let product := "Widget \x7bversion\x7d".toList
    ∃ s b r, (widgetChoices.file = some file ∧ load homes widgetTree file = .ok s ∧
        Attributes.assign .empty widgetChoices.assignments = .ok b) ∧
      resolve homes widgetTree widgetChoices = .ok r ∧ r.source = .ofText "/other".toList ∧
      r.workingDir = s.workingDir ∧ r.encoding = "latin-1".toList ∧
      s.attributes.entries = [("version".toList, ['1']), ("product".toList, product)] ∧
      r.attributes.entries =
        [("version".toList, " 2=3".toList), ("product".toList, product), ("edition".toList, [])] ∧
      -- The version has its turn before the product, in whose text it is not looked for.
      r.attributes.substitute "\x7bproduct\x7d,\x7bversion\x7d\x7bedition\x7d".toList =
        product ++ ", 2=3".toList := by
  intro homes file product
  have hread : (match load homes widgetTree file with
      | .ok s => some s.attributes.entries
      | .error _ => none) = some [("version".toList, ['1']), ("product".toList, product)] := by
    decide +kernel
  cases hload : load homes widgetTree file with
  | error e =>
      rw [hload] at hread
      cases hread
  | ok s =>
      rw [hload] at hread
      have hentries := Option.some.inj hread
      obtain ⟨-, hassign, -, -, hboth⟩ := resolve_updates
      have hb : Attributes.assign .empty widgetChoices.assignments =
          .ok (.ofList [("edition".toList, "old".toList), ("version".toList, " 2=3".toList),
            ("edition".toList, [])]) := by
        rw [hassign]
        decide
      obtain ⟨hresolve, hline⟩ := (hboth homes widgetTree widgetChoices .standard file s rfl hload).2 _ hb
      refine ⟨s, _, _, ⟨rfl, rfl, hb⟩, hresolve, rfl, rfl, rfl, hentries, ?_, ?_⟩
      · rw [OrderedMap.entries_insertAll, hentries]
        decide
      · rw [hline, hentries]
        decide +kernel

end Settings

end Folio

import Folio.Proofs.Lookup

/-!
# What a file tree can tell of a path

Whether something stands at a path cannot always be told. **The only reason is length**
(`status?_error`): the whole path is too long, or a name of it is, in a directory that exists. Every
other fault on the way means that there is nothing.

Where there are no links, a tree that can tell tells what stands at the location that the names of a
normal path spell (`status?_eq`). So two trees with the same entry there give the same answer, also
when there is nothing, if both can tell; and a tree with fewer directories can tell more
(`Answers.mono`).

Paths whose names all fit (`Path.Nameable`) lead to what stands at their locations, in every tree.
The paths of files that have been written are such paths. Paths that also go up lead, if anywhere,
to the location that their names spell when they are normalized (`resolve_location`).
-/

namespace Folio

namespace FileTree

variable {t u : FileTree} {p : Path}

/-! ## The one fault -/

/-- The faults into which a path can run on its way. -/
def wayFaults : List Fault := [.missing, .notDirectory, .linkLoop, .tooLong]

theorem eq_tooLong_or_isAbsence {f : Fault} (h : f ∈ wayFaults) :
    f = .tooLong ∨ f.isAbsence = true := by
  simp only [wayFaults, List.mem_cons, List.not_mem_nil, or_false] at h
  rcases h with rfl | rfl | rfl | rfl
  · exact .inr rfl
  · exact .inr rfl
  · exact .inr rfl
  · exact .inl rfl

theorem follow_error {jump : Bool → Location → List Name → Except Fault Place}
    (hjump : ∀ toDirectory loc names f, jump toDirectory loc names = .error f → f ∈ wayFaults)
    {toDirectory : Bool} {loc : Location} {names : List Name} {f : Fault}
    (h : t.follow jump toDirectory loc names = .error f) : f ∈ wayFaults := by
  induction names generalizing loc with
  | nil =>
      rw [follow] at h
      split at h
      · obtain rfl := Except.error.inj h
        decide
      · exact absurd h (by simp)
  | cons n names ih =>
      rw [follow] at h
      split at h
      · obtain rfl := Except.error.inj h
        decide
      · split at h
        · exact ih h
        · split at h
          · obtain rfl := Except.error.inj h
            decide
          · split at h
            · split at h
              · exact absurd h (by simp)
              · obtain rfl := Except.error.inj h
                decide
            · exact hjump _ _ _ _ h
            · exact ih h

theorem walk_error {links : Nat} {toDirectory : Bool} {loc : Location} {names : List Name}
    {f : Fault} (h : t.walk links toDirectory loc names = .error f) : f ∈ wayFaults := by
  induction links generalizing toDirectory loc names f with
  | zero =>
      refine follow_error (fun _ _ _ g hg => ?_) h
      obtain rfl := Except.error.inj hg
      decide
  | succ links ih => exact follow_error (fun _ _ _ _ hg => ih hg) h

theorem refusal?_eq_some {f : Fault} (h : refusal? p = some f) :
    f = .tooLong ∨ f.isAbsence = true := by
  rw [refusal?] at h
  split at h
  · exact .inr (by rw [← Option.some.inj h]; rfl)
  · split at h
    · exact .inr (by rw [← Option.some.inj h]; rfl)
    · split at h
      · exact .inl (Option.some.inj h).symm
      · exact absurd h (by simp)

theorem resolve_error {f : Fault} (h : t.resolve p = .error f) :
    f = .tooLong ∨ f.isAbsence = true := by
  rw [resolve] at h
  split at h
  · next g hg =>
      obtain rfl := Except.error.inj h
      exact refusal?_eq_some hg
  · exact eq_tooLong_or_isAbsence (walk_error h)

/-- The tree can tell what stands at the path, or that nothing does. -/
def Answers (t : FileTree) (p : Path) : Prop := (t.status? p).isOk = true

instance (t : FileTree) (p : Path) : Decidable (t.Answers p) :=
  inferInstanceAs (Decidable ((t.status? p).isOk = true))

theorem answers_iff : t.Answers p ↔ t.resolve p ≠ .error .tooLong := by
  rw [Answers, status?]
  cases hres : t.resolve p with
  | ok place => cases place <;> simp [Except.isOk, Except.toBool]
  | error f =>
      rcases resolve_error hres with rfl | habsent
      · simp [Fault.isAbsence, Except.isOk, Except.toBool]
      · have hne : f ≠ .tooLong := by
          rintro rfl
          exact absurd habsent (by decide)
        simp [habsent, hne, Except.isOk, Except.toBool]

/-- **A question fails only for length.** -/
theorem status?_error {f : Fault} (h : t.status? p = .error f) : f = .tooLong := by
  rw [status?] at h
  split at h
  · exact absurd h (by simp)
  · exact absurd h (by simp)
  · next g hres =>
      split at h
      · exact absurd h (by simp)
      · next hpresent =>
          obtain rfl := Except.error.inj h
          exact (resolve_error hres).resolve_right hpresent

/-! ## Answers without links -/

variable {jump jump' : Bool → Location → List Name → Except Fault Place} {loc : Location}
  {names : List Name}

/-- What is told at the end of a way. -/
def told (t : FileTree) : Except Fault Place → Except Fault (Option Entry)
  | .ok (.entry loc) => .ok (t.entryAt loc)
  | .ok (.free _ _) => .ok none
  | .error f => if f.isAbsence then .ok none else .error f

theorem status?_eq_told (t : FileTree) (p : Path) : t.status? p = t.told (t.resolve p) := by
  rw [status?]
  cases t.resolve p with
  | error f => rfl
  | ok place => cases place <;> rfl

/-- Nothing stands below a location that is not a directory. -/
theorem entryAt_eq_none_of_ne_directory (hne : names ≠ [])
    (h : t.entryAt loc ≠ some .directory) : t.entryAt (names.reverse ++ loc) = none := by
  rw [← Option.not_isSome_iff_eq_none]
  intro hsome
  exact h (directory_of_entryAt (by simpa using hne) hsome)

/-- A way by names that do not lead upwards ends where these names say, or at one that is too
long. -/
theorem told_follow (ht : t.LinkFree) (hplain : Name.up ∉ names) :
    t.follow jump false loc names = .error .tooLong ∨
      t.told (t.follow jump false loc names) = .ok (t.entryAt (names.reverse ++ loc)) := by
  induction names generalizing loc with
  | nil =>
      right
      rw [follow, if_neg (by simp)]
      rfl
  | cons n names ih =>
      rw [List.mem_cons, not_or] at hplain
      rw [follow, if_neg (Ne.symm hplain.1)]
      split
      · next hnot =>
          right
          rw [entryAt_eq_none_of_ne_directory (by simp) hnot]
          rfl
      · rw [List.reverse_cons, List.append_assoc, List.singleton_append]
        split
        · exact .inl rfl
        · split
          · next hnone =>
              right
              have hend : t.entryAt (names.reverse ++ n :: loc) = none := by
                by_cases hlast : names = []
                · rw [hlast]
                  exact hnone
                · exact entryAt_eq_none_of_ne_directory hlast (by simp [hnone])
              rw [hend]
              split <;> rfl
          · next target hlink => exact absurd hlink (ht _ target)
          · exact ih hplain.2

/-- **What is told of a normal path** is what stands at its location. -/
theorem status?_eq (ht : t.LinkFree) (hp : p.Normal) (h : t.Answers p) :
    t.status? p = .ok (if (refusal? p).isSome then none else t.entryAt p.location) := by
  rw [answers_iff] at h
  rw [status?_eq_told]
  rw [resolve] at h ⊢
  cases hrefusal : refusal? p with
  | some f =>
      rw [hrefusal] at h
      have habsent : f.isAbsence = true := (refusal?_eq_some hrefusal).resolve_left fun hf =>
        h (by rw [hf])
      simp [told, habsent]
  | none =>
      simp only [hrefusal] at h
      rw [namesOf, if_pos hp.absolute] at h
      simp only [namesOf, if_pos hp.absolute, Option.isSome_none, Bool.false_eq_true, if_false]
      rw [← List.append_nil p.location]
      exact (told_follow ht hp.plain).resolve_left h

/-- **Two trees give the same answer** if they have the same entry and both can tell. -/
theorem status?_congr (ht : t.LinkFree) (hu : u.LinkFree) (hp : p.Normal) (h : t.Answers p)
    (h' : u.Answers p) (hentry : u.entryAt p.location = t.entryAt p.location) :
    u.status? p = t.status? p := by
  rw [status?_eq ht hp h, status?_eq hu hp h', hentry]

/-- A tree can tell what another one can, if it has the same entry there. -/
theorem status?_congr_of_isSome (ht : t.LinkFree) (hu : u.LinkFree) (hp : p.Normal)
    (h : t.Answers p) (hsome : (t.entryAt p.location).isSome = true)
    (hentry : u.entryAt p.location = t.entryAt p.location) : u.status? p = t.status? p := by
  cases hrefusal : refusal? p with
  | some f =>
      rw [status?, status?, resolve, resolve]
      simp only [hrefusal]
  | none =>
      obtain ⟨e, he⟩ := Option.isSome_iff_exists.1 hsome
      have hstatus : t.status? p = .ok (some e) := by
        rw [status?_eq ht hp h, hrefusal, he]
        rfl
      rw [status?_of_entryAt ht hu hp hstatus (hentry.trans he), hstatus]

theorem isDirectory?_eq_true_iff :
    t.isDirectory? p = .ok true ↔ t.status? p = .ok (some .directory) := by
  rw [isDirectory?]
  cases t.status? p with
  | error f => simp [Except.map]
  | ok e => simp [Except.map]

/-- With fewer directories below `top'` than there are below `top`, no name is too long there. -/
theorem follow_ne_tooLong (hu : u.LinkFree) {top top' : Location}
    (hdirs : ∀ loc, u.entryAt (loc ++ top') = some .directory →
      t.entryAt (loc ++ top) = some .directory)
    (hplain : Name.up ∉ names) (h : t.follow jump false (loc ++ top) names ≠ .error .tooLong) :
    u.follow jump' false (loc ++ top') names ≠ .error .tooLong := by
  rw [ne_eq, follow_eq_tooLong_iff] at h ⊢
  refine mt (fun hlong => ?_) h
  clear h
  generalize hthere : loc ++ top' = there at hlong
  induction hlong generalizing loc with
  | here hdir hup hlong => exact .here (hdirs loc (hthere ▸ hdir)) hup hlong
  | up _ _ _ => exact absurd List.mem_cons_self hplain
  | link _ _ hlink _ => exact absurd hlink (hu _ _)
  | @name _ n _ _ hup hshort _ _ hrest ih =>
      have hdir : u.entryAt ((n :: loc) ++ top') = some .directory := by
        rw [List.cons_append, hthere]
        exact hrest.directory
      exact .name hup hshort (hdirs _ hdir) rfl
        (@ih (n :: loc) (fun hmem => hplain (List.mem_cons_of_mem _ hmem))
          (by rw [List.cons_append, hthere]))

/-- **With fewer directories, more can be told.** -/
theorem Answers.mono (hu : u.LinkFree) (hp : p.Normal)
    (hdirs : ∀ loc, u.entryAt loc = some .directory → t.entryAt loc = some .directory)
    (h : t.Answers p) : u.Answers p := by
  rw [answers_iff] at h ⊢
  rw [resolve] at h ⊢
  cases hrefusal : refusal? p with
  | some f =>
      rw [hrefusal] at h
      exact h
  | none =>
      simp only [hrefusal] at h
      rw [namesOf, if_pos hp.absolute] at h
      simp only [namesOf, if_pos hp.absolute]
      have hdirs' : ∀ loc, u.entryAt (loc ++ []) = some .directory →
          t.entryAt (loc ++ []) = some .directory := by simpa using hdirs
      show u.follow _ false ([] ++ []) p.names ≠ .error .tooLong
      exact follow_ne_tooLong hu hdirs' hp.plain h

end FileTree

/-! ## Paths whose names all fit -/

theorem Text.byteLength_append (s s' : Text) :
    (s ++ s').byteLength = s.byteLength + s'.byteLength := by
  have hfrom : ∀ (r : Text) (k : Nat),
      r.foldl (fun n c => n + c.utf8Size) k = k + r.byteLength := by
    intro r
    induction r with
    | nil => exact fun k => rfl
    | cons c r ih =>
        intro k
        rw [byteLength, List.foldl_cons, List.foldl_cons, ih, ih]
        omega
  rw [byteLength, List.foldl_append, hfrom]
  rfl

namespace Path

/-- Every system call accepts the path, and none of its names is too long. -/
structure Nameable (p : Path) : Prop where
  accepted : FileTree.refusal? p = none
  short : ∀ n ∈ p.names, n.text.byteLength ≤ nameLimit

theorem isPrefix_join {names names' : List Name} (h : names <+: names') :
    Text.join ['/'] (names.map Name.text) <+: Text.join ['/'] (names'.map Name.text) := by
  obtain ⟨rest, rfl⟩ := h
  induction names with
  | nil => exact List.nil_prefix
  | cons n names ih =>
      cases names with
      | nil =>
          cases rest with
          | nil => exact List.prefix_rfl
          | cons m rest =>
              simp only [List.map_cons, List.map_nil, List.cons_append, List.nil_append, Text.join,
                List.append_assoc]
              exact List.prefix_append _ _
      | cons m names =>
          simp only [List.map_cons, List.cons_append, Text.join] at ih ⊢
          exact (List.prefix_append_right_inj _).2 ih

theorem isPrefix_toText {p q : Path} (hp : p.isAbsolute = true) (hanchor : p.anchor = q.anchor)
    (hnames : p.names <+: q.names) : p.toText <+: q.toText := by
  have hhere : p.anchor ≠ .here := by simpa [isAbsolute] using hp
  rw [toText, toText, if_neg (fun h => hhere h.1), if_neg (fun h => hhere (hanchor.trans h.1)),
    hanchor]
  exact (List.prefix_append_right_inj _).2 (isPrefix_join hnames)

theorem refusal?_of_isPrefix {p q : Path} (h : p.toText <+: q.toText)
    (hq : FileTree.refusal? q = none) : FileTree.refusal? p = none := by
  obtain ⟨rest, hrest⟩ := h
  rw [FileTree.refusal?, ← hrest, Text.byteLength_append] at hq
  rw [FileTree.refusal?]
  split at hq
  · exact absurd hq (by simp)
  · next hhalf =>
      split at hq
      · exact absurd hq (by simp)
      · next hnull =>
          split at hq
          · exact absurd hq (by simp)
          · rw [if_neg, if_neg, if_neg]
            · omega
            · exact fun hmem => hnull (List.mem_append_left _ hmem)
            · exact fun hany => hhalf (by simp [hany])

theorem Nameable.of_isPrefix {p q : Path} (h : q.Nameable) (hp : p.isAbsolute = true)
    (hanchor : p.anchor = q.anchor) (hnames : p.names <+: q.names) : p.Nameable :=
  ⟨refusal?_of_isPrefix (isPrefix_toText hp hanchor hnames) h.accepted,
    fun n hn => h.short n (hnames.subset hn)⟩

end Path

namespace FileTree

variable {t u : FileTree} {p : Path} {jump : Bool → Location → List Name → Except Fault Place}
  {toDirectory : Bool} {loc : Location} {names rest : List Name}

theorem short_of_follow (ht : t.LinkFree) (hplain : Name.up ∉ names) {place : Place}
    (h : t.follow jump toDirectory loc names = .ok place) :
    ∀ n ∈ names, n.text.byteLength ≤ nameLimit := by
  rw [follow_eq_ok_iff] at h
  induction h with
  | here _ => simp
  | up _ _ _ => exact absurd List.mem_cons_self hplain
  | free _ _ _ hshort _ => exact List.forall_mem_singleton.2 hshort
  | link _ _ hlink _ => exact absurd hlink (ht _ _)
  | name _ hshort _ _ _ ih =>
      exact List.forall_mem_cons.2 ⟨hshort, ih fun hup => hplain (List.mem_cons_of_mem _ hup)⟩

/-- A path that leads somewhere is one whose names fit. -/
theorem nameable_of_resolve (ht : t.LinkFree) (hp : p.Normal) {place : Place}
    (h : t.resolve p = .ok place) : p.Nameable := by
  rw [resolve_eq_ok_iff, namesOf_of_isAbsolute hp.absolute] at h
  exact ⟨h.1, short_of_follow ht hp.plain h.2⟩

/-- A way goes on behind an entry. -/
theorem follow_append (hu : u.LinkFree) (hplain : Name.up ∉ names)
    (hshort : ∀ n ∈ names, n.text.byteLength ≤ nameLimit)
    (hentry : (u.entryAt (names.reverse ++ loc)).isSome = true) :
    u.follow jump toDirectory loc (names ++ rest) =
      u.follow jump toDirectory (names.reverse ++ loc) rest := by
  induction names generalizing loc with
  | nil => rfl
  | cons n names ih =>
      rw [List.mem_cons, not_or] at hplain
      rw [List.forall_mem_cons] at hshort
      obtain ⟨e, he⟩ := Option.isSome_iff_exists.1 (isSome_entryAt_of_cons hentry)
      rw [List.reverse_cons, List.append_assoc, List.singleton_append] at hentry ⊢
      rw [List.cons_append, follow_name (Ne.symm hplain.1) hshort.1 he (hu.isLink he)]
      exact ih hplain.2 hshort.2 hentry

/-- A way on which no file stands ends at a free name, or is missing, if nothing stands at its
end. -/
theorem follow_of_none (hu : u.LinkFree) (hplain : Name.up ∉ names)
    (hshort : ∀ n ∈ names, n.text.byteLength ≤ nameLimit)
    (hway : ∀ there, there <:+ names.reverse ++ loc → ∀ content,
      u.entryAt there ≠ some (.file content))
    (hdir : u.entryAt loc = some .directory) (hend : u.entryAt (names.reverse ++ loc) = none) :
    (∃ top n, u.follow jump toDirectory loc names = .ok (.free top n)) ∨
      u.follow jump toDirectory loc names = .error .missing := by
  induction names generalizing loc with
  | nil => exact absurd (hdir.symm.trans hend) (by simp)
  | cons n names ih =>
      rw [List.mem_cons, not_or] at hplain
      rw [List.forall_mem_cons] at hshort
      rw [List.reverse_cons, List.append_assoc, List.singleton_append] at hway hend
      rw [follow, if_neg (by simp [hdir]), if_neg (Ne.symm hplain.1), if_neg (by omega)]
      cases hentry : u.entryAt (n :: loc) with
      | none =>
          simp only
          split
          · exact .inl ⟨loc, n, rfl⟩
          · exact .inr rfl
      | some e =>
          cases e with
          | link target => exact absurd hentry (hu _ target)
          | file content => exact absurd hentry (hway _ (List.suffix_append _ _) content)
          | directory => exact ih hplain.2 hshort.2 hway hentry hend

theorem exists_walk_eq (u : FileTree) (links : Nat) : ∃ jump, u.walk links = u.follow jump := by
  cases links <;> exact ⟨_, rfl⟩

theorem walk_of_entryAt (hu : u.LinkFree) (hplain : Name.up ∉ names)
    (hshort : ∀ n ∈ names, n.text.byteLength ≤ nameLimit)
    (hentry : (u.entryAt names.reverse).isSome = true) (links : Nat) :
    u.walk links false [] names = .ok (.entry names.reverse) := by
  obtain ⟨jump, hwalk⟩ := u.exists_walk_eq links
  rw [← List.append_nil names.reverse] at hentry ⊢
  have hend : u.follow jump false [] (names ++ []) = u.follow jump false (names.reverse ++ []) [] :=
    follow_append hu hplain hshort hentry
  rw [List.append_nil names] at hend
  rw [hwalk, hend, follow, if_neg (by simp)]

/-- **A path whose names fit leads to what stands at its location.** -/
theorem resolve_of_entryAt (hu : u.LinkFree) (hp : p.Normal) (hfits : p.Nameable)
    (hentry : (u.entryAt p.location).isSome = true) :
    u.resolve p = .ok (.entry p.location) := by
  rw [resolve_eq_ok_iff, namesOf_of_isAbsolute hp.absolute]
  exact ⟨hfits.accepted, walk_of_entryAt hu hp.plain hfits.short hentry linkLimit⟩

/-- It leads to a free name if nothing stands there, in a directory. -/
theorem resolve_of_free (hu : u.LinkFree) (hp : p.Normal) (hfits : p.Nameable) {n : Name}
    (hlocation : p.location = n :: loc) (hnone : u.entryAt p.location = none)
    (hdir : u.entryAt loc = some .directory) : u.resolve p = .ok (.free loc n) := by
  have hnames : p.names = loc.reverse ++ [n] := by
    rw [← List.reverse_reverse p.names, ← List.reverse_cons]
    exact congrArg List.reverse hlocation
  have hplain := hp.plain
  have hshort := hfits.short
  rw [hnames, List.mem_append, not_or] at hplain
  simp only [hnames, List.mem_append, List.mem_singleton] at hshort
  obtain ⟨jump, hwalk⟩ := u.exists_walk_eq linkLimit
  rw [resolve_of_accepted hfits.accepted, namesOf_of_isAbsolute hp.absolute, hnames, hwalk,
    follow_append hu hplain.1 (fun m hm => hshort m (.inl hm)) (by simp [hdir]),
    List.reverse_reverse, List.append_nil, follow_eq_ok_iff]
  exact .free rfl hdir (fun h => hplain.2 (by simp [h])) (hshort n (.inr rfl)) (hlocation ▸ hnone)

theorem isDirectory?_of_entryAt (hu : u.LinkFree) (hp : p.Normal) (hfits : p.Nameable)
    (hentry : u.entryAt p.location = some .directory) : u.isDirectory? p = .ok true := by
  rw [isDirectory?, status?, resolve_of_entryAt hu hp hfits (by simp [hentry])]
  simp only [hentry]
  rfl

/-! ## Where paths lead that go up and down -/

theorem follow_location (ht : t.LinkFree) {jump : Bool → Location → List Name → Except Fault Place}
    {toDirectory : Bool} {loc : Location} {names : List Name} {place : Place}
    (hloc : Name.up ∉ loc) (h : t.follow jump toDirectory loc names = .ok place) :
    place.location = names.foldl (Path.push true) loc := by
  rw [follow_eq_ok_iff] at h
  induction h with
  | here _ => rfl
  | @up loc _ _ _ _ ih =>
      have hpush : Path.push true loc .up = loc.tail := by
        cases loc with
        | nil => simp [Path.push]
        | cons top rest =>
            rw [List.mem_cons, not_or] at hloc
            simp [Path.push, Ne.symm hloc.1]
      rw [List.foldl_cons, hpush]
      exact ih fun hmem => hloc (List.mem_of_mem_tail hmem)
  | free _ _ hup _ _ =>
      rw [List.foldl_cons, Path.push_of_ne_up hup]
      rfl
  | link _ _ hlink _ => exact absurd hlink (ht _ _)
  | name hup _ _ _ _ ih =>
      rw [List.foldl_cons, Path.push_of_ne_up hup]
      exact ih (List.not_mem_cons_of_ne_of_not_mem (Ne.symm hup) hloc)

/-- The names of a normalized path, as a stack. -/
theorem absolute_location (t : FileTree) (p : Path) :
    (Path.absolute t.cwdPath p).location = (t.namesOf p).foldl (Path.push true) [] := by
  rw [Path.absolute, Path.normalize, Path.location, List.reverse_reverse, Path.join, namesOf]
  by_cases habs : p.isAbsolute = true
  · simp [habs]
  · rw [if_neg habs, if_neg habs]
    rfl

/-- **Without links, a path leads where it leads without looking at any file.** -/
theorem resolve_location (ht : t.LinkFree) {place : Place} (h : t.resolve p = .ok place) :
    place.location = (Path.absolute t.cwdPath p).location := by
  obtain ⟨jump, hwalk⟩ := t.exists_walk_eq linkLimit
  rw [resolve_eq_ok_iff, hwalk] at h
  rw [follow_location ht (by simp) h.2, absolute_location]

end FileTree

end Folio

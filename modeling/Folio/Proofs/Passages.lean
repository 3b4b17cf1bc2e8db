import Folio.Proofs.Answers

/-!
# Where normalized paths lead

Normalization lets `..` take back the name in front of it, and looks at no file. A file tree leads
upwards from where that name has led. **The two agree if the name is that of a directory** in which
no link is left: `Path.takenBack` lists all names that are taken back, and `FileTree.lookup?` says
what stands there.

**Passages (`FileTree.Passes`).** Names lead from one location to another, through a number of
links. Passages are put together and cut where the lists of names are, which the following of a path
with a limit on links is not; `walk_append_of_passes` leads back to it.

A path that has been followed up to some name and its normal form have come to one directory and
have the same names before them from there (`FileTree.Meets`). Each name keeps this, a `..` as well.

Main results: `resolve_absolute`, where what is taken back are directories, and
`takenBack_of_resolve`, which says that they are if a path leads anywhere and takes no link back.
-/

namespace Folio

/-! ## Names that are taken back -/

namespace Path

/-- The names of a list that a `..` takes back, each with the names in front of it. The first
argument is the stack of names so far. -/
def takenBackFrom : List Name → List Name → List (List Name × Name)
  | _, [] => []
  | [], n :: names => takenBackFrom (push true [] n) names
  | top :: stack, n :: names =>
      if n = .up then (stack.reverse, top) :: takenBackFrom (push true (top :: stack) n) names
      else takenBackFrom (push true (top :: stack) n) names

theorem takenBackFrom_of_ne_up {stack names : List Name} {n : Name} (h : n ≠ .up) :
    takenBackFrom stack (n :: names) = takenBackFrom (n :: stack) names := by
  cases stack <;> simp [takenBackFrom, push_of_ne_up h, h]

/-- The names from the root that a `..` takes back, each with the names in front of it. -/
def takenBack (names : List Name) : List (List Name × Name) := takenBackFrom [] names

end Path

namespace FileTree

/-- What stands at a name in the directory to which some names lead. A link there is not followed.
-/
def lookup? (t : FileTree) (names : List Name) (n : Name) : Option Entry :=
  match t.walk linkLimit false [] names with
  | .ok (.entry loc) => if nameLimit < n.text.byteLength then none else t.entryAt (n :: loc)
  | _ => none

variable {t : FileTree} {loc mid there : Location} {names names' : List Name} {n : Name}
  {toDirectory : Bool} {links k j : Nat} {place : Place}

theorem lookup?_eq_some_iff {e : Entry} :
    t.lookup? names n = some e ↔ ∃ loc, t.walk linkLimit false [] names = .ok (.entry loc) ∧
      n.text.byteLength ≤ nameLimit ∧ t.entryAt (n :: loc) = some e := by
  rw [lookup?]
  cases hwalk : t.walk linkLimit false [] names with
  | error f => simp
  | ok place =>
      cases place with
      | free loc m => simp
      | entry loc =>
          by_cases hlong : nameLimit < n.text.byteLength
          · simp [hlong, Nat.not_le.2 hlong]
          · simp [hlong, Nat.not_lt.1 hlong]

/-! ## Passages -/

/-- The names lead from one location to another, through this many links: upwards from a directory,
to an entry that is no link, or through a link. -/
inductive Passes (t : FileTree) : Nat → Location → List Name → Location → Prop
  | nil {loc : Location} : Passes t 0 loc [] loc
  | up {k : Nat} {loc there : Location} {names : List Name} :
      t.entryAt loc = some .directory → Passes t k loc.tail names there →
      Passes t k loc (.up :: names) there
  | name {k : Nat} {loc there : Location} {n : Name} {names : List Name} {e : Entry} :
      n ≠ .up → n.text.byteLength ≤ nameLimit → t.entryAt (n :: loc) = some e → e.isLink = false →
      Passes t k (n :: loc) names there → Passes t k loc (n :: names) there
  | link {k : Nat} {loc there : Location} {n : Name} {names : List Name} {target : Text} :
      n ≠ .up → n.text.byteLength ≤ nameLimit → t.entryAt (n :: loc) = some (.link target) →
      Passes t k (if (Path.ofText target).isAbsolute then [] else loc)
        ((Path.ofText target).names ++ names) there →
      Passes t (k + 1) loc (n :: names) there

namespace Passes

theorem append (h : t.Passes k loc names mid) (h' : t.Passes j mid names' there) :
    t.Passes (k + j) loc (names ++ names') there := by
  induction h with
  | nil => rwa [Nat.zero_add]
  | up hdir _ ih => exact .up hdir (ih h')
  | name hup hshort hentry hlink _ ih => exact .name hup hshort hentry hlink (ih h')
  | link hup hshort hentry _ ih =>
      rw [Nat.succ_add, List.cons_append]
      refine .link hup hshort hentry ?_
      rw [← List.append_assoc]
      exact ih h'

/-- What is left of a passage, when its first names have led somewhere. -/
theorem of_append (h : t.Passes k loc names mid) (h' : t.Passes j loc (names ++ names') there) :
    ∃ i, j = k + i ∧ t.Passes i mid names' there := by
  induction h generalizing j with
  | nil => exact ⟨j, (Nat.zero_add j).symm, h'⟩
  | up _ _ ih =>
      rw [List.cons_append] at h'
      cases h' with
      | up _ hrest => exact ih hrest
      | name hup _ _ _ _ => exact absurd rfl hup
      | link hup _ _ _ => exact absurd rfl hup
  | name hup _ hentry hlink _ ih =>
      rw [List.cons_append] at h'
      cases h' with
      | up _ _ => exact absurd rfl hup
      | name _ _ _ _ hrest => exact ih hrest
      | link _ _ hentry' _ =>
          obtain rfl := Option.some.inj (hentry.symm.trans hentry')
          exact absurd hlink (by simp [Entry.isLink])
  | link hup _ hentry _ ih =>
      rw [List.cons_append] at h'
      cases h' with
      | up _ _ => exact absurd rfl hup
      | name _ _ hentry' hlink _ =>
          obtain rfl := Option.some.inj (hentry.symm.trans hentry')
          exact absurd hlink (by simp [Entry.isLink])
      | link _ _ hentry' hrest =>
          obtain rfl := Entry.link.inj (Option.some.inj (hentry.symm.trans hentry'))
          rw [← List.append_assoc] at hrest
          obtain ⟨i, rfl, hmid⟩ := ih hrest
          exact ⟨i, by omega, hmid⟩

end Passes

/-! ## Passages and ways with a limit -/

theorem walk_nil (hdir : t.entryAt loc = some .directory) :
    t.walk links toDirectory loc [] = .ok (.entry loc) := by
  cases links <;> simp [walk, follow, hdir]

theorem walk_up (hdir : t.entryAt loc = some .directory) :
    t.walk links toDirectory loc (.up :: names) = t.walk links toDirectory loc.tail names := by
  cases links <;> simp [walk, follow, hdir]

theorem walk_name {e : Entry} (hup : n ≠ .up) (hshort : n.text.byteLength ≤ nameLimit)
    (hentry : t.entryAt (n :: loc) = some e) (hlink : e.isLink = false) :
    t.walk links toDirectory loc (n :: names) = t.walk links toDirectory (n :: loc) names := by
  cases links <;> exact follow_name hup hshort hentry hlink

theorem walk_link {target : Text} (hup : n ≠ .up) (hshort : n.text.byteLength ≤ nameLimit)
    (hentry : t.entryAt (n :: loc) = some (.link target)) :
    t.walk (links + 1) toDirectory loc (n :: names) =
      t.walk links (toDirectory || (names.isEmpty && leadsToDirectory target))
        (if (Path.ofText target).isAbsolute then [] else loc)
        ((Path.ofText target).names ++ names) :=
  follow_link hup hshort hentry

/-- **Behind a passage** a way goes on with the links that are left. -/
theorem walk_append_of_passes (h : t.Passes k loc names mid)
    (hend : names' ≠ [] ∨ t.entryAt mid = some .directory) (links : Nat) (toDirectory : Bool) :
    t.walk (k + links) toDirectory loc (names ++ names') = t.walk links toDirectory mid names' := by
  induction h generalizing toDirectory with
  | nil => rw [Nat.zero_add, List.nil_append]
  | up hdir _ ih =>
      rw [List.cons_append, walk_up hdir]
      exact ih hend toDirectory
  | name hup hshort hentry hlink _ ih =>
      rw [List.cons_append, walk_name hup hshort hentry hlink]
      exact ih hend toDirectory
  | @link k _ _ _ rest target hup hshort hentry _ ih =>
      rw [List.cons_append, Nat.succ_add, walk_link hup hshort hentry, ← List.append_assoc, ih hend]
      by_cases hlast : names' = []
      · have hdir := hend.resolve_left fun hne => hne hlast
        rw [hlast, walk_nil hdir, walk_nil hdir]
      · -- The link is not the last name, so it does not matter how its text ends.
        have hempty : (rest ++ names').isEmpty = false := by simp [hlast]
        rw [hempty, Bool.false_and, Bool.or_false]

/-- A passage to a directory is a way there. -/
theorem walk_of_passes (h : t.Passes k loc names mid) (hk : k ≤ links)
    (hdir : t.entryAt mid = some .directory) :
    t.walk links toDirectory loc names = .ok (.entry mid) := by
  obtain ⟨left, rfl⟩ := Nat.exists_eq_add_of_le hk
  rw [← List.append_nil names, walk_append_of_passes h (.inr hdir), walk_nil hdir]

theorem passes_of_follow {jump : Bool → Location → List Name → Except Fault Place}
    (hjump : ∀ toDirectory loc names place, jump toDirectory loc (names ++ names') = .ok place →
      (names' = [] → ∃ there, place = .entry there) →
      ∃ k mid, k < links ∧ t.Passes k loc names mid ∧ (names' = [] → place = .entry mid))
    (h : t.follow jump toDirectory loc (names ++ names') = .ok place)
    (hend : names' = [] → ∃ there, place = .entry there) :
    ∃ k mid, k ≤ links ∧ t.Passes k loc names mid ∧ (names' = [] → place = .entry mid) := by
  rw [follow_eq_ok_iff] at h
  induction names generalizing loc with
  | nil =>
      refine ⟨0, loc, Nat.zero_le _, .nil, ?_⟩
      rintro rfl
      cases h with
      | here _ => rfl
  | cons n names ih =>
      rw [List.cons_append] at h
      generalize hall : names ++ names' = all at h
      cases h with
      | up hdir hrest =>
          obtain ⟨k, mid, hk, hpasses, hplace⟩ := ih (hall ▸ hrest)
          exact ⟨k, mid, hk, .up hdir hpasses, hplace⟩
      | free _ _ _ _ _ =>
          obtain ⟨there, hplace⟩ := hend (List.append_eq_nil_iff.1 hall).2
          exact absurd hplace (by simp)
      | link hup hshort hentry hto =>
          rw [← hall, ← List.append_assoc] at hto
          obtain ⟨k, mid, hk, hpasses, hplace⟩ := hjump _ _ _ _ hto hend
          exact ⟨k + 1, mid, hk, .link hup hshort hentry hpasses, hplace⟩
      | name hup hshort hentry hlink hrest =>
          obtain ⟨k, mid, hk, hpasses, hplace⟩ := ih (hall ▸ hrest)
          exact ⟨k, mid, hk, .name hup hshort hentry hlink hpasses, hplace⟩

/-- **A way that leads somewhere** is a passage for its first names. -/
theorem passes_of_walk (h : t.walk links toDirectory loc (names ++ names') = .ok place)
    (hend : names' = [] → ∃ there, place = .entry there) :
    ∃ k mid, k ≤ links ∧ t.Passes k loc names mid ∧ (names' = [] → place = .entry mid) := by
  induction links generalizing toDirectory loc names place with
  | zero => exact passes_of_follow (fun _ _ _ _ hjump => absurd hjump (by simp)) h hend
  | succ links ih =>
      refine passes_of_follow (fun _ _ _ _ hjump hend' => ?_) h hend
      obtain ⟨k, mid, hk, hpasses⟩ := ih hjump hend'
      exact ⟨k, mid, Nat.lt_succ_of_le hk, hpasses⟩

theorem directory_of_walk (h : t.walk links toDirectory loc (n :: names) = .ok place) :
    t.entryAt loc = some .directory := by
  obtain ⟨jump, hwalk⟩ := t.exists_walk_eq links
  rw [hwalk, follow_eq_ok_iff] at h
  cases h with
  | up hdir _ => exact hdir
  | free _ hdir _ _ _ => exact hdir
  | link _ _ hentry _ => exact entryAt_parent hentry
  | name _ _ hentry _ _ => exact entryAt_parent hentry

/-! ## Names that meet -/

/-- Two lists of names lead to one directory, through as many links, and go on alike from there. -/
def Meets (t : FileTree) (names names' : List Name) : Prop :=
  ∃ k start start' rest mid, names = start ++ rest ∧ names' = start' ++ rest ∧ k ≤ linkLimit ∧
    t.Passes k [] start mid ∧ t.Passes k [] start' mid ∧ t.entryAt mid = some .directory

namespace Meets

variable {below : List Name} {top : Name}

theorem nil (t : FileTree) : t.Meets [] [] :=
  ⟨0, [], [], [], [], rfl, rfl, Nat.zero_le _, .nil, .nil, entryAt_root t⟩

theorem symm (h : t.Meets names names') : t.Meets names' names := by
  obtain ⟨k, start, start', rest, mid, hnames, hnames', hk, hstart, hstart', hdir⟩ := h
  exact ⟨k, start', start, rest, mid, hnames', hnames, hk, hstart', hstart, hdir⟩

theorem walk_eq (h : t.Meets names names') (toDirectory : Bool) :
    t.walk linkLimit toDirectory [] names = t.walk linkLimit toDirectory [] names' := by
  obtain ⟨k, start, start', rest, mid, rfl, rfl, hk, hstart, hstart', hdir⟩ := h
  obtain ⟨left, hleft⟩ := Nat.exists_eq_add_of_le hk
  rw [hleft, walk_append_of_passes hstart (.inr hdir), walk_append_of_passes hstart' (.inr hdir)]

theorem passes (h : t.Meets names names') (hway : t.Passes k [] names there) :
    t.Passes k [] names' there := by
  obtain ⟨j, start, start', rest, mid, rfl, rfl, -, hstart, hstart', -⟩ := h
  obtain ⟨i, rfl, hrest⟩ := hstart.of_append hway
  exact hstart'.append hrest

theorem concat (h : t.Meets names names') (n : Name) : t.Meets (names ++ [n]) (names' ++ [n]) := by
  obtain ⟨k, start, start', rest, mid, rfl, rfl, hk, hstart, hstart', hdir⟩ := h
  exact ⟨k, start, start', rest ++ [n], mid, List.append_assoc _ _ _, List.append_assoc _ _ _, hk,
    hstart, hstart', hdir⟩

/-- At the root, upwards leads nowhere. -/
theorem up_root (h : t.Meets names []) : t.Meets (names ++ [.up]) [] := by
  have hto : t.Passes 0 [] names [] := h.symm.passes .nil
  exact ⟨0, names ++ [.up], [], [], [], (List.append_nil _).symm, rfl, Nat.zero_le _,
    hto.append (.up (entryAt_root t) .nil), .nil, entryAt_root t⟩

/-- **A directory that is no link is taken back.** -/
theorem up (h : t.Meets names (below ++ [top])) (htop : top ≠ .up)
    (hlookup : t.lookup? below top = some .directory) : t.Meets (names ++ [.up]) below := by
  obtain ⟨loc, hwalk, hshort, hentry⟩ := lookup?_eq_some_iff.1 hlookup
  rw [← List.append_nil below] at hwalk
  obtain ⟨k, mid, hk, hbelow, hplace⟩ := passes_of_walk hwalk fun _ => ⟨loc, rfl⟩
  obtain rfl : loc = mid := Place.entry.inj (hplace rfl)
  have hto : t.Passes k [] (below ++ [top]) (top :: loc) :=
    hbelow.append (.name htop hshort hentry rfl .nil)
  have hnames : t.Passes k [] (names ++ [.up]) loc :=
    (h.symm.passes hto).append (.up hentry .nil)
  exact ⟨k, names ++ [.up], below, [], loc, (List.append_nil _).symm, (List.append_nil _).symm, hk,
    hnames, hbelow, entryAt_parent hentry⟩

/-- What is taken back on a way that leads somewhere is a directory, if it is no link. -/
theorem lookup?_of_walk (h : t.Meets names (below ++ [top])) (htop : top ≠ .up)
    (hwalk : t.walk linkLimit toDirectory [] (names ++ .up :: names') = .ok place)
    (hlink : ∀ target, t.lookup? below top ≠ some (.link target)) :
    t.lookup? below top = some .directory := by
  obtain ⟨k, mid, hk, hnames, -⟩ := passes_of_walk hwalk (by simp)
  obtain ⟨left, hleft⟩ := Nat.exists_eq_add_of_le hk
  rw [hleft, walk_append_of_passes hnames (.inl (by simp))] at hwalk
  have hmid := directory_of_walk hwalk
  have hall := h.passes hnames
  obtain ⟨i, loc, hi, hbelow, -⟩ :=
    passes_of_walk (walk_of_passes hall hk hmid : t.walk linkLimit false [] _ = _) (by simp)
  obtain ⟨j, -, hlast⟩ := hbelow.of_append hall
  have hto : t.entryAt loc = some .directory →
      t.walk linkLimit false [] below = .ok (.entry loc) := walk_of_passes hbelow hi
  cases hlast with
  | up => exact absurd rfl htop
  | name _ hshort hentry _ hnil =>
      cases hnil
      exact lookup?_eq_some_iff.2 ⟨loc, hto (entryAt_parent hentry), hshort, hmid⟩
  | @link _ _ _ _ _ target _ hshort hentry _ =>
      exact absurd (lookup?_eq_some_iff.2 ⟨loc, hto (entryAt_parent hentry), hshort, hentry⟩)
        (hlink target)

end Meets

/-! ## Normalized paths -/

variable {before stack : List Name}

/-- **A list of names and its normal form meet** if only directories are taken back. -/
theorem meets_foldl (h : t.Meets before stack.reverse) (hstack : Name.up ∉ stack)
    (hback : ∀ x ∈ Path.takenBackFrom stack names, t.lookup? x.1 x.2 = some .directory) :
    t.Meets (before ++ names) (names.foldl (Path.push true) stack).reverse := by
  induction names generalizing before stack with
  | nil => rwa [List.append_nil]
  | cons n names ih =>
      rw [List.append_cons, List.foldl_cons]
      by_cases hup : n = .up
      · subst hup
        cases stack with
        | nil => exact ih h.up_root hstack hback
        | cons top stack =>
            rw [List.mem_cons, not_or] at hstack
            rw [Path.takenBackFrom, if_pos rfl, Path.push_up_cons (Ne.symm hstack.1),
              List.forall_mem_cons] at hback
            rw [Path.push_up_cons (Ne.symm hstack.1)]
            rw [List.reverse_cons] at h
            exact ih (h.up (Ne.symm hstack.1) hback.1) hstack.2 hback.2
      · rw [Path.takenBackFrom_of_ne_up hup] at hback
        rw [Path.push_of_ne_up hup]
        refine ih ?_ (by simp [Ne.symm hup, hstack]) hback
        rw [List.reverse_cons]
        exact h.concat n

/-- What is taken back on a way that leads somewhere are directories, if none of it are links. -/
theorem takenBackFrom_of_walk (h : t.Meets before stack.reverse) (hstack : Name.up ∉ stack)
    (hwalk : t.walk linkLimit toDirectory [] (before ++ names) = .ok place)
    (hlinks : ∀ x ∈ Path.takenBackFrom stack names, ∀ target,
      t.lookup? x.1 x.2 ≠ some (.link target)) :
    ∀ x ∈ Path.takenBackFrom stack names, t.lookup? x.1 x.2 = some .directory := by
  induction names generalizing before stack with
  | nil =>
      intro x hx
      cases stack <;> exact absurd hx (by simp [Path.takenBackFrom])
  | cons n names ih =>
      have hwalk' := hwalk
      rw [List.append_cons] at hwalk'
      by_cases hup : n = .up
      · subst hup
        cases stack with
        | nil => exact ih h.up_root hstack hwalk' hlinks
        | cons top stack =>
            rw [List.mem_cons, not_or] at hstack
            have htop := Ne.symm hstack.1
            rw [Path.takenBackFrom, if_pos rfl, Path.push_up_cons htop] at hlinks ⊢
            rw [List.forall_mem_cons] at hlinks ⊢
            rw [List.reverse_cons] at h
            have hlookup := h.lookup?_of_walk htop hwalk hlinks.1
            exact ⟨hlookup, ih (h.up htop hlookup) hstack.2 hwalk' hlinks.2⟩
      · rw [Path.takenBackFrom_of_ne_up hup] at hlinks ⊢
        refine ih ?_ (by simp [Ne.symm hup, hstack]) hwalk' hlinks
        rw [List.reverse_cons]
        exact h.concat n

theorem namesOf_absolute (t : FileTree) (p : Path) :
    t.namesOf (Path.absolute t.cwdPath p) =
      ((t.namesOf p).foldl (Path.push true) []).reverse := by
  have habsolute : ∀ names, (⟨t.cwdPath.anchor, names⟩ : Path).isAbsolute = true := fun _ => rfl
  by_cases hp : p.isAbsolute = true
  · have hnormal : p.normalize.isAbsolute = true := hp
    rw [Path.absolute, Path.join, if_pos hp, namesOf, if_pos hnormal, namesOf, if_pos hp,
      Path.normalize, hp]
  · rw [Path.absolute, Path.join, if_neg hp, Path.normalize, namesOf, if_pos (habsolute _),
      namesOf, if_neg hp, habsolute]
    rfl

/-- **A normalized path leads where the path leads**, if what its `..` take back are directories and
no links. -/
theorem resolve_absolute {p : Path} (hp : refusal? p = none)
    (hnormal : refusal? (Path.absolute t.cwdPath p) = none)
    (hback : ∀ x ∈ Path.takenBack (t.namesOf p), t.lookup? x.1 x.2 = some .directory) :
    t.resolve (Path.absolute t.cwdPath p) = t.resolve p := by
  have hmeets := meets_foldl (.nil t) List.not_mem_nil hback
  rw [resolve_of_accepted hp, resolve_of_accepted hnormal, namesOf_absolute]
  exact (hmeets.walk_eq false).symm

/-- **A path that leads somewhere** takes only directories back, if it takes no link back. -/
theorem takenBack_of_resolve {p : Path} (h : t.resolve p = .ok place)
    (hlinks : ∀ x ∈ Path.takenBack (t.namesOf p), ∀ target,
      t.lookup? x.1 x.2 ≠ some (.link target)) :
    ∀ x ∈ Path.takenBack (t.namesOf p), t.lookup? x.1 x.2 = some .directory :=
  takenBackFrom_of_walk (.nil t) List.not_mem_nil (resolve_eq_ok_iff.1 h).2 hlinks

end FileTree

end Folio

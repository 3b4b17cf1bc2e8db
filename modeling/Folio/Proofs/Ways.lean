import Folio.FileTree.Resolve

/-!
# Ways

`FileTree.follow` goes from name to name, and may fail at each of them. **A way that does not fail**
is told by what its names are (`FileTree.Way`): a name may lead upwards, belong to a file or a
directory, belong to a link, or be free, if it is the last one. A way that fails because a name is
too long (`FileTree.Overlong`) has names of the same kinds in front of this one.

Main results: `follow_eq_ok_iff` and `follow_eq_tooLong_iff`. What holds of all ways is shown by
induction on them, with a case for each kind of name.
-/

namespace Folio

/-- The location of what stands at a place, or may be put there. -/
def Place.location : Place → Location
  | .entry loc => loc
  | .free loc n => n :: loc

/-- Whether the entry is a link. -/
def Entry.isLink : Entry → Bool
  | .link _ => true
  | _ => false

theorem Entry.isLink_eq_false {e : Entry} (h : ∀ target, e ≠ .link target) : e.isLink = false := by
  cases e with
  | link target => exact absurd rfl (h target)
  | file content => rfl
  | directory => rfl

namespace FileTree

variable {t : FileTree} {jump : Bool → Location → List Name → Except Fault Place}
  {toDirectory : Bool} {loc : Location} {n : Name} {names : List Name} {place : Place}

theorem follow_name {e : Entry} (hup : n ≠ .up) (hshort : n.text.byteLength ≤ nameLimit)
    (hentry : t.entryAt (n :: loc) = some e) (hlink : e.isLink = false) :
    t.follow jump toDirectory loc (n :: names) = t.follow jump toDirectory (n :: loc) names := by
  have hdir := entryAt_parent hentry
  cases e with
  | link target => exact absurd hlink (by simp [Entry.isLink])
  | file content => simp [follow, hdir, hup, Nat.not_lt.2 hshort, hentry]
  | directory => simp [follow, hdir, hup, Nat.not_lt.2 hshort, hentry]

theorem follow_link {target : Text} (hup : n ≠ .up) (hshort : n.text.byteLength ≤ nameLimit)
    (hentry : t.entryAt (n :: loc) = some (.link target)) :
    t.follow jump toDirectory loc (n :: names) =
      jump (toDirectory || (names.isEmpty && leadsToDirectory target))
        (if (Path.ofText target).isAbsolute then [] else loc)
        ((Path.ofText target).names ++ names) := by
  simp [follow, entryAt_parent hentry, hup, Nat.not_lt.2 hshort, hentry]

/-! ## Names that lead somewhere -/

/-- Names lead from a location to a place. Behind a link, `jump` does. Only the last name may be
free. -/
inductive Way (t : FileTree) (jump : Bool → Location → List Name → Except Fault Place)
    (toDirectory : Bool) : Location → List Name → Place → Prop
  | here {loc : Location} : (toDirectory = true → t.entryAt loc = some .directory) →
      Way t jump toDirectory loc [] (.entry loc)
  | up {loc : Location} {names : List Name} {place : Place} : t.entryAt loc = some .directory →
      Way t jump toDirectory loc.tail names place → Way t jump toDirectory loc (.up :: names) place
  | free {loc : Location} {n : Name} : toDirectory = false → t.entryAt loc = some .directory →
      n ≠ .up → n.text.byteLength ≤ nameLimit → t.entryAt (n :: loc) = none →
      Way t jump toDirectory loc [n] (.free loc n)
  | link {loc : Location} {n : Name} {names : List Name} {target : Text} {place : Place} :
      n ≠ .up → n.text.byteLength ≤ nameLimit → t.entryAt (n :: loc) = some (.link target) →
      jump (toDirectory || (names.isEmpty && leadsToDirectory target))
        (if (Path.ofText target).isAbsolute then [] else loc)
        ((Path.ofText target).names ++ names) = .ok place →
      Way t jump toDirectory loc (n :: names) place
  | name {loc : Location} {n : Name} {names : List Name} {e : Entry} {place : Place} :
      n ≠ .up → n.text.byteLength ≤ nameLimit → t.entryAt (n :: loc) = some e →
      e.isLink = false → Way t jump toDirectory (n :: loc) names place →
      Way t jump toDirectory loc (n :: names) place

/-- **Names lead somewhere** just if there is a way. -/
theorem follow_eq_ok_iff :
    t.follow jump toDirectory loc names = .ok place ↔ t.Way jump toDirectory loc names place := by
  constructor
  · intro h
    induction names generalizing loc with
    | nil =>
        rw [follow] at h
        split at h
        · exact absurd h (by simp)
        · next hend =>
            obtain rfl := Except.ok.inj h
            exact .here fun hto => Decidable.of_not_not fun hdir => hend ⟨hto, hdir⟩
    | cons n names ih =>
        rw [follow] at h
        split at h
        · exact absurd h (by simp)
        · next hdir =>
            have hdir : t.entryAt loc = some .directory := by simpa using hdir
            split at h
            · next hup => exact hup ▸ .up hdir (ih h)
            · next hup =>
                split at h
                · exact absurd h (by simp)
                · next hshort =>
                    have hshort := Nat.not_lt.1 hshort
                    split at h
                    · next hnone =>
                        split at h
                        · next hend =>
                            obtain rfl := Except.ok.inj h
                            obtain ⟨rfl, hto⟩ := hend
                            exact .free hto hdir hup hshort hnone
                        · exact absurd h (by simp)
                    · next target hentry => exact .link hup hshort hentry h
                    · next e hnot hentry =>
                        exact .name hup hshort hentry (Entry.isLink_eq_false hnot) (ih h)
  · intro h
    induction h with
    | here hend => rw [follow, if_neg fun h => h.2 (hend h.1)]
    | up hdir _ ih => rw [follow, if_neg (by simp [hdir]), if_pos rfl, ih]
    | free hto hdir hup hshort hnone =>
        simp [follow, hdir, hup, Nat.not_lt.2 hshort, hnone, hto]
    | link hup hshort hentry hjump => rw [follow_link hup hshort hentry, hjump]
    | name hup hshort hentry hlink _ ih => rw [follow_name hup hshort hentry hlink, ih]

/-! ## Names that are too long -/

/-- Names lead from a location to a directory in which the next one is too long. Behind a link,
`jump` does. -/
inductive Overlong (t : FileTree) (jump : Bool → Location → List Name → Except Fault Place)
    (toDirectory : Bool) : Location → List Name → Prop
  | here {loc : Location} {n : Name} {names : List Name} : t.entryAt loc = some .directory →
      n ≠ .up → nameLimit < n.text.byteLength → Overlong t jump toDirectory loc (n :: names)
  | up {loc : Location} {names : List Name} : t.entryAt loc = some .directory →
      Overlong t jump toDirectory loc.tail names → Overlong t jump toDirectory loc (.up :: names)
  | link {loc : Location} {n : Name} {names : List Name} {target : Text} :
      n ≠ .up → n.text.byteLength ≤ nameLimit → t.entryAt (n :: loc) = some (.link target) →
      jump (toDirectory || (names.isEmpty && leadsToDirectory target))
        (if (Path.ofText target).isAbsolute then [] else loc)
        ((Path.ofText target).names ++ names) = .error .tooLong →
      Overlong t jump toDirectory loc (n :: names)
  | name {loc : Location} {n : Name} {names : List Name} {e : Entry} :
      n ≠ .up → n.text.byteLength ≤ nameLimit → t.entryAt (n :: loc) = some e →
      e.isLink = false → Overlong t jump toDirectory (n :: loc) names →
      Overlong t jump toDirectory loc (n :: names)

/-- Names lead to a fault of length only in front of a name that is too long. -/
theorem follow_eq_tooLong_iff : t.follow jump toDirectory loc names = .error .tooLong ↔
    t.Overlong jump toDirectory loc names := by
  constructor
  · intro h
    induction names generalizing loc with
    | nil =>
        rw [follow] at h
        split at h <;> exact absurd h (by simp)
    | cons n names ih =>
        rw [follow] at h
        split at h
        · exact absurd h (by simp)
        · next hdir =>
            have hdir : t.entryAt loc = some .directory := by simpa using hdir
            split at h
            · next hup => exact hup ▸ .up hdir (ih h)
            · next hup =>
                split at h
                · next hlong => exact .here hdir hup hlong
                · next hshort =>
                    have hshort := Nat.not_lt.1 hshort
                    split at h
                    · split at h <;> exact absurd h (by simp)
                    · next target hentry => exact .link hup hshort hentry h
                    · next e hnot hentry =>
                        exact .name hup hshort hentry (Entry.isLink_eq_false hnot) (ih h)
  · intro h
    induction h with
    | here hdir hup hlong => simp [follow, hdir, hup, hlong]
    | up hdir _ ih => rw [follow, if_neg (by simp [hdir]), if_pos rfl, ih]
    | link hup hshort hentry hjump => rw [follow_link hup hshort hentry, hjump]
    | name hup hshort hentry hlink _ ih => rw [follow_name hup hshort hentry hlink, ih]

/-- Such a name stands behind a directory. -/
theorem Overlong.directory (h : t.Overlong jump toDirectory loc names) :
    t.entryAt loc = some .directory := by
  cases h with
  | here hdir _ _ => exact hdir
  | up hdir _ => exact hdir
  | link _ _ hentry _ => exact entryAt_parent hentry
  | name _ _ hentry _ _ => exact entryAt_parent hentry

/-! ## Paths -/

variable {p : Path}

theorem namesOf_of_isAbsolute (hp : p.isAbsolute = true) : t.namesOf p = p.names := if_pos hp

theorem resolve_of_accepted (hp : refusal? p = none) :
    t.resolve p = t.walk linkLimit false [] (t.namesOf p) := by
  rw [resolve, hp]

/-- **A path leads somewhere** if it is accepted and its names do. -/
theorem resolve_eq_ok_iff : t.resolve p = .ok place ↔
    refusal? p = none ∧ t.walk linkLimit false [] (t.namesOf p) = .ok place := by
  cases hp : refusal? p with
  | some f => simp [resolve, hp]
  | none => simp [resolve_of_accepted hp]

end FileTree

end Folio

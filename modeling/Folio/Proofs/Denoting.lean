import Folio.Proofs.Retained

/-!
# The files that paths denote

A path to what is still missing denotes a file as well: the one that is there when the directories
on the way have been made and it has been written. **Only links decide which file this is**, so no
writing changes it (`Alters.denoted?_eq`): names are followed as in `FileTree.resolve`, and whatever
is not a link is taken for a directory.

**Footprints (`FileTree.Alters`).** One tree differs from another only by the files that some paths
denote, and by new directories on the way to them. The paths may go up, and lead through links.

Main results: `Document.write_alters`, writing a document leaves no other trace than its file and
the missing directories on the way to it, and `Alters.spares`, what other paths denote stays.
-/

namespace Folio

namespace FileTree

variable {t u w : FileTree} {p q : Path} {loc : Location} {names : List Name} {n : Name}
  {paths : Path → Prop}

/-! ## Following links only -/

/-- The text of the link at a location. -/
def link? (t : FileTree) (loc : Location) : Option Text :=
  match t.entryAt loc with
  | some (.link target) => some target
  | _ => none

theorem link?_eq_some_iff {target : Text} :
    t.link? loc = some target ↔ t.entryAt loc = some (.link target) := by
  rw [link?]
  split
  · next heq => simp [heq]
  · next hnot => simpa using hnot target

theorem link?_eq_none (h : t.entryAt loc = none) : t.link? loc = none := by rw [link?, h]

/-- Follows names from a location, where only links are looked at; at a link, `jump` goes on with
the names of its target. -/
def trace (link? : Location → Option Text) (jump : Location → List Name → Option Location) :
    Location → List Name → Option Location
  | loc, [] => some loc
  | loc, n :: ns =>
      if n = .up then trace link? jump loc.tail ns
      else
        match link? (n :: loc) with
        | none => trace link? jump (n :: loc) ns
        | some target =>
            let p := Path.ofText target
            jump (if p.isAbsolute then [] else loc) (p.names ++ ns)

/-- Follows names from a location through at most this many links. -/
def traceWithin (link? : Location → Option Text) : Nat → Location → List Name → Option Location
  | 0 => trace link? fun _ _ => none
  | links + 1 => trace link? (traceWithin link? links)

/-- The location of the file that a path denotes, whether it is there or not. -/
def denoted? (t : FileTree) (p : Path) : Option Location :=
  traceWithin t.link? linkLimit [] (t.namesOf p)

theorem link?_of_isLink {e : Entry} (hentry : t.entryAt loc = some e) (he : e.isLink = false) :
    t.link? loc = none := by
  cases e with
  | link target => exact absurd he (by simp [Entry.isLink])
  | file content => rw [link?, hentry]
  | directory => rw [link?, hentry]

theorem trace_of_follow {jump : Bool → Location → List Name → Except Fault Place}
    {jump' : Location → List Name → Option Location}
    (hjump : ∀ toDirectory loc names place, jump toDirectory loc names = .ok place →
      jump' loc names = some place.location)
    {toDirectory : Bool} {place : Place} (h : t.follow jump toDirectory loc names = .ok place) :
    trace t.link? jump' loc names = some place.location := by
  rw [follow_eq_ok_iff] at h
  induction h with
  | here _ => rfl
  | up _ _ ih => rw [trace, if_pos rfl, ih]
  | free _ _ hup _ hnone =>
      rw [trace, if_neg hup, link?_eq_none hnone]
      rfl
  | link hup _ hentry hto =>
      rw [trace, if_neg hup, link?_eq_some_iff.2 hentry]
      exact hjump _ _ _ _ hto
  | name hup _ hentry hlink _ ih =>
      rw [trace, if_neg hup, link?_of_isLink hentry hlink]
      exact ih

theorem traceWithin_of_walk {links : Nat} {toDirectory : Bool} {place : Place}
    (h : t.walk links toDirectory loc names = .ok place) :
    traceWithin t.link? links loc names = some place.location := by
  induction links generalizing toDirectory loc names place with
  | zero => exact trace_of_follow (fun _ _ _ _ hjump => absurd hjump (by simp)) h
  | succ links ih => exact trace_of_follow (fun _ _ _ _ hjump => ih hjump) h

/-- **Where a path leads, it denotes.** -/
theorem denoted?_of_resolve {place : Place} (h : t.resolve p = .ok place) :
    t.denoted? p = some place.location :=
  traceWithin_of_walk (resolve_eq_ok_iff.1 h).2

/-- A name behind others is looked up where those lead. -/
theorem trace_concat {link? : Location → Option Text}
    {jump : Location → List Name → Option Location} {there : Location} (hup : n ≠ .up)
    (hfree : link? (n :: there) = none)
    (hjump : ∀ loc names, jump loc names = some there →
      jump loc (names ++ [n]) = some (n :: there))
    (h : trace link? jump loc names = some there) :
    trace link? jump loc (names ++ [n]) = some (n :: there) := by
  induction names generalizing loc with
  | nil =>
      obtain rfl := Option.some.inj h
      simp [trace, hup, hfree]
  | cons m names ih =>
      rw [trace] at h
      rw [List.cons_append, trace]
      split at h
      · next hm =>
          rw [if_pos hm]
          exact ih h
      · next hm =>
          rw [if_neg hm]
          split at h
          · exact ih h
          · simp only [← List.append_assoc]
            exact hjump _ _ h

theorem traceWithin_concat {link? : Location → Option Text} {links : Nat} {there : Location}
    (hup : n ≠ .up) (hfree : link? (n :: there) = none)
    (h : traceWithin link? links loc names = some there) :
    traceWithin link? links loc (names ++ [n]) = some (n :: there) := by
  induction links generalizing loc names with
  | zero => exact trace_concat hup hfree (fun _ _ hjump => absurd hjump (by simp)) h
  | succ links ih => exact trace_concat hup hfree (fun _ _ hjump => ih hjump) h

/-! ## Footprints -/

/-- The location is that of a directory on the way to a file. -/
def OnWay (t : FileTree) (p : Path) (loc : Location) : Prop :=
  ∃ names, names <+: p.parent.names ∧ t.denoted? ⟨p.anchor, names⟩ = some loc

/-- `u` is `t` with other files where some paths lead and with new directories on the way to them. A
location at which there is something else is on one of the ways, or at its end. -/
structure Alters (paths : Path → Prop) (t u : FileTree) : Prop where
  keeps : Keeps t u
  entry : ∀ loc, u.entryAt loc = t.entryAt loc ∨
    (∃ p, paths p ∧ t.denoted? p = some loc ∧ ∃ content, u.entryAt loc = some (.file content)) ∨
    (∃ p, paths p ∧ t.OnWay p loc ∧ t.entryAt loc = none ∧ u.entryAt loc = some .directory)

/-- The two paths do not denote one file. -/
def Apart (t : FileTree) (p q : Path) : Prop :=
  ∀ loc, t.denoted? p = some loc → t.denoted? q ≠ some loc

theorem apart_iff : t.Apart p q ↔ t.denoted? p = none ∨ t.denoted? p ≠ t.denoted? q := by
  rw [Apart]
  cases t.denoted? p with
  | none => simp
  | some loc => simp [eq_comm]

instance (t : FileTree) (p q : Path) : Decidable (t.Apart p q) :=
  decidable_of_iff (t.denoted? p = none ∨ t.denoted? p ≠ t.denoted? q) apart_iff.symm

theorem Apart.symm (h : t.Apart p q) : t.Apart q p := fun loc hq hp => h loc hp hq

namespace Alters

theorem refl (paths : Path → Prop) (t : FileTree) : Alters paths t t :=
  ⟨.refl t, fun _ => .inl rfl⟩

theorem mono {paths' : Path → Prop} (h : Alters paths t u) (hsub : ∀ p, paths p → paths' p) :
    Alters paths' t u := by
  refine ⟨h.keeps, fun loc => ?_⟩
  rcases h.entry loc with heq | ⟨p, hp, hfile⟩ | ⟨p, hp, hdir⟩
  · exact .inl heq
  · exact .inr (.inl ⟨p, hsub p hp, hfile⟩)
  · exact .inr (.inr ⟨p, hsub p hp, hdir⟩)

/-- Links are neither made nor replaced. -/
theorem link?_eq (h : Alters paths t u) : u.link? = t.link? := by
  have hlink : ∀ loc target, u.entryAt loc = some (.link target) ↔
      t.entryAt loc = some (.link target) := by
    intro loc target
    constructor
    · intro hu
      rcases h.entry loc with heq | ⟨_, _, _, _, hfile⟩ | ⟨_, _, _, _, hdir⟩
      · rw [← heq, hu]
      · exact absurd (hu.symm.trans hfile) (by simp)
      · exact absurd (hu.symm.trans hdir) (by simp)
    · intro ht
      obtain ⟨e, he, hlike⟩ := h.keeps.entry ht
      obtain rfl | ⟨_, _, hfile, -⟩ := Entry.alike_iff.1 hlike
      · exact he
      · exact absurd hfile (by simp)
  funext loc
  refine Option.ext fun target => ?_
  rw [link?_eq_some_iff, link?_eq_some_iff]
  exact hlink loc target

/-- **Paths denote what they denoted.** -/
theorem denoted?_eq (h : Alters paths t u) (p : Path) : u.denoted? p = t.denoted? p := by
  rw [denoted?, denoted?, h.link?_eq, namesOf, namesOf, h.keeps.cwd]

theorem onWay_iff (h : Alters paths t u) : u.OnWay p loc ↔ t.OnWay p loc := by
  simp only [OnWay, h.denoted?_eq]

theorem apart_iff (h : Alters paths t u) : u.Apart p q ↔ t.Apart p q := by
  simp only [Apart, h.denoted?_eq]

theorem trans (h : Alters paths t u) (h' : Alters paths u w) : Alters paths t w := by
  refine ⟨h.keeps.trans h'.keeps, fun loc => ?_⟩
  rcases h'.entry loc with heq | ⟨p, hp, hat, hfile⟩ | ⟨p, hp, hway, hnone, hdir⟩
  · rw [heq]
    exact h.entry loc
  · exact .inr (.inl ⟨p, hp, h.denoted?_eq p ▸ hat, hfile⟩)
  · exact .inr (.inr ⟨p, hp, h.onWay_iff.1 hway, h.keeps.none hnone, hdir⟩)

end Alters

/-- What a path denotes is the same in `u` as in `t`; at most there is now a directory, where there
was nothing, on the way to one of some other paths. -/
structure Spares (others : Path → Prop) (t u : FileTree) (q : Path) : Prop where
  entry : ∀ loc, t.denoted? q = some loc → u.entryAt loc = t.entryAt loc ∨
    t.entryAt loc = none ∧ u.entryAt loc = some .directory ∧ ∃ p, others p ∧ t.OnWay p loc
  content : ∀ bytes, t.readFile q = .ok bytes → u.readFile q = .ok bytes

/-- **What other paths denote stays.** -/
theorem Alters.spares (h : Alters paths t u) (hq : ∀ p, paths p → t.Apart p q) :
    Spares paths t u q := by
  have hentry : ∀ loc, t.denoted? q = some loc → u.entryAt loc = t.entryAt loc ∨
      t.entryAt loc = none ∧ u.entryAt loc = some .directory ∧ ∃ p, paths p ∧ t.OnWay p loc := by
    intro loc hloc
    rcases h.entry loc with heq | ⟨p, hp, hat, -⟩ | ⟨p, hp, hway, hnone, hdir⟩
    · exact .inl heq
    · exact absurd hloc (hq p hp loc hat)
    · exact .inr ⟨hnone, hdir, p, hp, hway⟩
  refine ⟨hentry, fun bytes hread => ?_⟩
  obtain ⟨loc, hres, hfile⟩ := status?_eq_some_iff.1 (readFile_eq_ok_iff.1 hread)
  refine readFile_eq_ok_iff.2 (status?_eq_some_iff.2 ⟨loc, h.keeps.resolve hres, ?_⟩)
  rcases hentry loc (denoted?_of_resolve hres) with heq | ⟨hnone, -⟩
  · rw [heq, hfile]
  · exact absurd (hfile.symm.trans hnone) (by simp)

/-! ## The operations -/

theorem make_denotes {e : Entry} (h : t.make p e = .ok u) :
    ∃ loc, t.denoted? p = some loc ∧ t.entryAt loc = none ∧
      ∀ there, u.entryAt there = if there = loc then some e else t.entryAt there := by
  rw [make] at h
  split at h
  · exact absurd h (by simp)
  · split at h
    · exact absurd h (by simp)
    · next n hlast =>
        split at h
        · exact absurd h (by simp)
        · exact absurd h (by simp)
        · next loc hwalk =>
            split at h
            · exact absurd h (by simp)
            · split at h
              · exact absurd h (by simp)
              · next hup =>
                  split at h
                  · exact absurd h (by simp)
                  · obtain ⟨hnone, hput⟩ := add_eq_ok h
                    have hnames : t.namesOf p = t.namesOf p.parent ++ [n] := by
                      obtain ⟨names, hp⟩ := List.getLast?_eq_some_iff.1 hlast
                      simp only [namesOf, Path.parent, Path.isAbsolute, hp,
                        List.dropLast_concat]
                      split
                      · rfl
                      · rw [List.append_assoc]
                    refine ⟨n :: loc, ?_, hnone, hput⟩
                    rw [denoted?, hnames]
                    exact traceWithin_concat hup (link?_eq_none hnone) (traceWithin_of_walk hwalk)

theorem makeDirectory_alters (hway : names <+: p.parent.names)
    (h : t.makeDirectory ⟨p.anchor, names⟩ = .ok u) : Alters (· = p) t u := by
  obtain ⟨loc, hat, hnone, hput⟩ := make_denotes h
  refine ⟨(make_retains h).toKeeps, fun there => ?_⟩
  rw [hput]
  split
  · next heq =>
      subst heq
      exact .inr (.inr ⟨p, rfl, ⟨names, hway, hat⟩, hnone, rfl⟩)
  · exact .inl rfl

theorem makeDirectories_alters (p : Path) (t : FileTree) :
    Alters (· = p) t (t.makeDirectories p.parent).1 :=
  makeDirectories_chain (.refl _) .trans makeDirectory_alters t

theorem writeFile_alters {content : List UInt8} (h : t.writeFile p content = .ok u) :
    Alters (· = p) t u := by
  obtain ⟨place, hres, hput⟩ := writeFile_eq_ok h
  refine ⟨(writeFile_retains h).toKeeps, fun there => ?_⟩
  rw [hput]
  split
  · next heq => exact .inr (.inl ⟨p, rfl, heq ▸ denoted?_of_resolve hres, content, rfl⟩)
  · exact .inl rfl

end FileTree

open FileTree

/-- **Writing a document** changes nothing but its file and the missing directories on the way to
it, whether it succeeds or not. -/
theorem Document.write_alters (t : FileTree) (p : Path) (encoding : Text) (lines : List Text) :
    Alters (· = p) t (Document.write t p encoding lines).1 := by
  have hdirs := makeDirectories_alters p t
  rcases write_tree t p encoding lines with hsame | ⟨content, hwrite⟩
  · rw [hsame]
    exact hdirs
  · exact hdirs.trans (writeFile_alters hwrite)

namespace Relink

variable {how : Copying} {targets : Targets} {t : FileTree}

theorem copy_alters (how : Copying) (targets : Targets) (file target : Path) (t : FileTree) :
    Alters (· = target) t (copy how targets file target t).tree := by
  rw [copy]
  split
  · exact .refl _ t
  · split
    · exact .refl _ t
    · exact Document.write_alters t target how.encoding _

/-- **Making copies** changes nothing but their files and the missing directories on the way to
them. -/
theorem copyEach_alters (how : Copying) (targets : Targets) (skip : List Path)
    (docs : List (Path × Path)) (t : FileTree) :
    Alters (· ∈ (docs.map Prod.snd).filter (· ∉ skip)) t
      (copyEach how targets skip docs t).tree := by
  induction docs generalizing t with
  | nil => exact .refl _ t
  | cons e docs ih =>
      obtain ⟨file, target⟩ := e
      rw [copyEach]
      by_cases hskip : target ∈ skip
      · simpa [hskip] using ih t
      · have hcopy : Alters (· ∈ target :: (docs.map Prod.snd).filter (· ∉ skip)) t
            (copy how targets file target t).tree :=
          (copy_alters how targets file target t).mono fun p hp => hp ▸ List.mem_cons_self
        have hfilter : (((file, target) :: docs).map Prod.snd).filter (· ∉ skip) =
            target :: (docs.map Prod.snd).filter (· ∉ skip) := by
          simp [hskip]
        rw [hfilter, if_neg hskip]
        split
        · next hc =>
            rw [hc] at hcopy
            exact hcopy
        · next t₁ es hc =>
            rw [hc] at hcopy
            exact hcopy.trans ((ih t₁).mono fun p hp => List.mem_cons_of_mem _ hp)

end Relink

end Folio

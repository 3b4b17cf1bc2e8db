import Folio.Proofs.Normal

/-!
# Relative paths

A document refers to another file by a relative path. Such a path is made from two absolute ones,
and it is to lead from the directory of the first to the place of the second.

**Canonical texts (`Text.Canonical`).** Of the many texts that lead from one directory to one place,
the one that is made goes up first and then down, without empty names and without dots that lead
nowhere. Only the way from a directory to itself is a dot.

**Leading back.** Read in the directory for which it was made, a relative path leads to the place
where it was made for, normalized (`Path.refer_relativeTo`). So two places have different relative
paths from one directory, unless they differ in nothing but the way in which the root is written.

Main result: `Path.relativeTo_roundTrip`.
-/

namespace Folio

/-! ## Canonical texts -/

/-- The text is that of a relative path on its shortest way: steps to a parent directory stand only
in front, no name is empty, so there is no slash in front, at the end or beside another one, and a
name that is a single dot is the whole text. -/
structure Text.Canonical (t : Text) : Prop where
  upsFirst : ∃ ups names, Text.splitOn '/' t = List.replicate ups Name.up.text ++ names ∧
    Name.up.text ∉ names
  full : [] ∉ Text.splitOn '/' t
  dot : ['.'] ∈ Text.splitOn '/' t → t = ['.']

namespace Path

/-- The text of some names is cut into them. -/
theorem splitOn_toText_here {names : List Name} (h : names ≠ []) :
    Text.splitOn '/' (toText ⟨.here, names⟩) = names.map Name.text := by
  have hslash : ∀ t ∈ names.map Name.text, '/' ∉ t := by
    intro t ht
    obtain ⟨n, -, rfl⟩ := List.mem_map.1 ht
    exact n.proper.2.1
  rw [toText, if_neg (fun hnil => h hnil.2)]
  exact splitOn_join (by simpa using h) hslash

theorem text_not_mem_map {n : Name} {names : List Name} (h : n ∉ names) :
    n.text ∉ names.map Name.text := by
  intro hmem
  obtain ⟨m, hm, htext⟩ := List.mem_map.1 hmem
  have heq : some m = some n := by rw [← Name.ofText?_text m, htext, Name.ofText?_text]
  exact h (Option.some.inj heq ▸ hm)

theorem canonical_toText {ups : Nat} {names : List Name} (h : Name.up ∉ names) :
    (toText ⟨.here, List.replicate ups .up ++ names⟩).Canonical := by
  by_cases hnil : List.replicate ups Name.up ++ names = []
  · -- From a directory to itself.
    rw [hnil]
    exact ⟨⟨0, [['.']], rfl, by decide⟩, by decide, fun _ => rfl⟩
  · have hproper : ∀ t ∈ (List.replicate ups Name.up ++ names).map Name.text, Name.Proper t := by
      intro t ht
      obtain ⟨n, -, rfl⟩ := List.mem_map.1 ht
      exact n.proper
    refine ⟨⟨ups, names.map Name.text, ?_, text_not_mem_map h⟩, ?_, ?_⟩
    · rw [splitOn_toText_here hnil, List.map_append, List.map_replicate]
    · rw [splitOn_toText_here hnil]
      exact fun hmem => (hproper _ hmem).1 rfl
    · rw [splitOn_toText_here hnil]
      exact fun hmem => absurd rfl (hproper _ hmem).2.2

/-! ## The names on the way -/

/-- From one list of names to another, the way goes up and then down. -/
theorem exists_offset_eq (as : List Name) {bs : List Name} (hb : Name.up ∉ bs) :
    ∃ ups names, offset as bs = List.replicate ups .up ++ names ∧ Name.up ∉ names := by
  induction as generalizing bs with
  | nil => exact ⟨0, bs, by cases bs <;> rfl, hb⟩
  | cons a as ih =>
      cases bs with
      | nil => exact ⟨(a :: as).length, [], by simp [offset, List.map_const', List.replicate_succ],
          List.not_mem_nil⟩
      | cons b bs =>
          by_cases hab : a = b
          · rw [offset, if_pos hab]
            exact ih fun hup => hb (List.mem_cons_of_mem _ hup)
          · refine ⟨(a :: as).length, b :: bs, ?_, hb⟩
            rw [offset, if_neg hab, List.map_const', List.length_cons, List.replicate_succ]

/-- The way tells where it ends. -/
theorem offset_inj {as bs cs : List Name} (ha : Name.up ∉ as) (hb : Name.up ∉ bs)
    (hc : Name.up ∉ cs) (h : offset as bs = offset as cs) : bs = cs := by
  have hend : (offset as bs).foldl (push true) (as.reverse ++ []) = bs.reverse ++ [] :=
    foldl_push_offset ha hb []
  rw [h, foldl_push_offset ha hc [], List.append_nil, List.append_nil] at hend
  exact (List.reverse_inj.1 hend).symm

/-! ## Relative paths -/

variable {start place p q : Path}

theorem absolute_names_plain (base : Path) (h : p.isAbsolute = true) :
    Name.up ∉ (absolute base p).names := by
  rw [absolute_of_isAbsolute base h]
  exact (normalize_normal h).plain

theorem canonical_relativeTo (base : Path) (hp : place.isAbsolute = true) :
    (relativeTo base start place).toText.Canonical := by
  obtain ⟨ups, names, hoffset, hplain⟩ := exists_offset_eq (absolute base start).names
    (absolute_names_plain base hp)
  rw [relativeTo, hoffset]
  exact canonical_toText hplain

/-- Normal paths have the same relative path just if they have the same names. -/
theorem toText_relativeTo_eq_iff (base : Path) (hs : start.isAbsolute = true) (hp : p.Normal)
    (hq : q.Normal) :
    (relativeTo base start p).toText = (relativeTo base start q).toText ↔ p.names = q.names := by
  rw [relativeTo, relativeTo, hp.absolute_eq, hq.absolute_eq]
  constructor
  · intro htext
    have hpath := congrArg ofText htext
    rw [ofText_toText, ofText_toText] at hpath
    exact offset_inj (absolute_names_plain base hs) hp.plain hq.plain (congrArg Path.names hpath)
  · intro hnames
    rw [hnames]

/-- **Relative paths.** A relative path from the directory of a document, read in the document,
leads to the place for which it was made, normalized. From one directory, different normal paths
below the same root have different relative paths, and all of these are canonical. -/
theorem relativeTo_roundTrip (base : Path) :
    (∀ file place : Path, file.isAbsolute = true → place.anchor = file.anchor →
      Document.refer file (relativeTo base file.parent place).toText = place.normalize) ∧
    (∀ start p q : Path, start.isAbsolute = true → p.Normal → q.Normal → p.anchor = q.anchor →
      (relativeTo base start p).toText = (relativeTo base start q).toText → p = q) ∧
    ∀ start place : Path, place.isAbsolute = true →
      (relativeTo base start place).toText.Canonical := by
  refine ⟨fun file place hf ha => refer_relativeTo base hf ha, ?_, ?_⟩
  · intro start p q hs hp hq hanchor htext
    have hnames := (toText_relativeTo_eq_iff base hs hp hq).1 htext
    calc p = ⟨p.anchor, p.names⟩ := rfl
      _ = ⟨q.anchor, q.names⟩ := by rw [hanchor, hnames]
  · intro start place hp
    exact canonical_relativeTo base hp

/-- A document whose directory is spelled by a detour. -/
def detour : Path := .ofText "//w/x/../guide/a.adoc".toList

/-- A path that climbs above the root. -/
def climber : Path := .ofText "//s/../../img/./p.png".toList

theorem detour_relativeTo :
    (detour.isAbsolute = true ∧ climber.anchor = detour.anchor ∧ climber.normalize.Normal) ∧
    (relativeTo default detour.parent climber).toText = "../../img/p.png".toList ∧
    Document.refer detour (relativeTo default detour.parent climber).toText =
      .ofText "//img/p.png".toList ∧
    (∀ q : Path, q.Normal → climber.normalize.anchor = q.anchor →
      (relativeTo default detour.parent climber.normalize).toText =
        (relativeTo default detour.parent q).toText → climber.normalize = q) ∧
    (relativeTo default detour.parent climber).toText.Canonical :=
  have hdetour : detour.isAbsolute = true := by decide +kernel
  have hanchor : climber.anchor = detour.anchor := by decide +kernel
  have hclimber : climber.isAbsolute = true := by decide +kernel
  have hnormal : climber.normalize.Normal := normalize_normal hclimber
  have htext : (relativeTo default detour.parent climber).toText = "../../img/p.png".toList := by
    decide +kernel
  have hplace : climber.normalize = .ofText "//img/p.png".toList := by decide +kernel
  have h := relativeTo_roundTrip default
  ⟨⟨hdetour, hanchor, hnormal⟩, htext, (h.1 detour climber hdetour hanchor).trans hplace,
    fun q hq ha ht => h.2.1 detour.parent climber.normalize q hdetour hnormal hq ha ht,
    h.2.2 detour.parent climber hclimber⟩

end Path

end Folio

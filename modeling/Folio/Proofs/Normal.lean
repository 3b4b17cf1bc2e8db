import Folio.Document

/-!
# Normal paths

A path is normal if it is absolute and never leads to a parent directory. Normalizing an absolute
path makes it normal, and normal paths are the ones that stay as they are.

Normalization pushes names on a stack, on which `..` takes off the name on top. **The names that
lead from one directory to another take the stack of the first to the stack of the second**
(`foldl_push_offset`), on top of whatever lies below. So a relative path leads back to the place for
which it was made, and a document keeps its offset below another root.

Main results: `refer_relativeTo`, a relative path read from the directory it was made for;
`targetOf_below`, the place for a document that lies below the same directory as the document which
includes it.
-/

namespace Folio

namespace Path

/-- The path is absolute and never leads to a parent directory. -/
structure Normal (p : Path) : Prop where
  absolute : p.isAbsolute = true
  plain : Name.up ∉ p.names

/-! ## The stack -/

theorem push_of_ne_up {absolute : Bool} {stack : List Name} {n : Name} (h : n ≠ .up) :
    push absolute stack n = n :: stack := by
  unfold push
  rw [if_neg h]

theorem push_up_cons {absolute : Bool} {stack : List Name} {top : Name} (h : top ≠ .up) :
    push absolute (top :: stack) .up = stack := by
  simp [push, h]

/-- Names that do not lead upwards are put on the stack. -/
theorem foldl_push_plain {absolute : Bool} {names : List Name} (h : Name.up ∉ names)
    (stack : List Name) : names.foldl (push absolute) stack = names.reverse ++ stack := by
  induction names generalizing stack with
  | nil => rfl
  | cons n names ih =>
      rw [List.mem_cons, not_or] at h
      rw [List.foldl_cons, push_of_ne_up (Ne.symm h.1), ih h.2, List.reverse_cons,
        List.append_assoc, List.singleton_append]

/-- As many steps upwards as there are names on top of the stack take these off. -/
theorem foldl_push_up {absolute : Bool} {top : List Name} (h : Name.up ∉ top)
    (stack : List Name) :
    (top.map fun _ => Name.up).foldl (push absolute) (top ++ stack) = stack := by
  induction top with
  | nil => rfl
  | cons n top ih =>
      rw [List.mem_cons, not_or] at h
      rw [List.map_cons, List.foldl_cons, List.cons_append, push_up_cons (Ne.symm h.1), ih h.2]

theorem map_up_reverse (names : List Name) :
    names.map (fun _ => Name.up) = names.reverse.map fun _ => Name.up := by
  simp [List.map_const']

/-- **The names from one directory to another** take the stack of the first to the stack of the
second. -/
theorem foldl_push_offset {absolute : Bool} {as bs : List Name} (ha : Name.up ∉ as)
    (hb : Name.up ∉ bs) (stack : List Name) :
    (offset as bs).foldl (push absolute) (as.reverse ++ stack) = bs.reverse ++ stack := by
  induction as generalizing bs stack with
  | nil =>
      have hnil : offset [] bs = bs := by cases bs <;> rfl
      rw [hnil]
      exact foldl_push_plain hb stack
  | cons a as ih =>
      cases bs with
      | nil =>
          have hup : offset (a :: as) [] = (a :: as).map fun _ => Name.up := by simp [offset]
          rw [hup, map_up_reverse]
          exact foldl_push_up (by rwa [List.mem_reverse]) stack
      | cons b bs =>
          by_cases hab : a = b
          · -- The common name goes to the stack below.
            subst hab
            rw [List.mem_cons, not_or] at ha hb
            rw [offset, if_pos rfl, List.reverse_cons, List.append_assoc, List.singleton_append,
              ih ha.2 hb.2, List.reverse_cons, List.append_assoc, List.singleton_append]
          · rw [offset, if_neg hab]
            show ((a :: as).map (fun _ => Name.up) ++ b :: bs).foldl (push absolute) _ = _
            rw [List.foldl_append, map_up_reverse, foldl_push_up (by rwa [List.mem_reverse]),
              foldl_push_plain hb]

theorem up_not_mem_push {stack : List Name} (h : Name.up ∉ stack) (n : Name) :
    Name.up ∉ push true stack n := by
  unfold push
  split
  · cases stack with
    | nil => simp
    | cons top rest =>
        rw [List.mem_cons, not_or] at h
        simp [Ne.symm h.1, h.2]
  · next hn => simp [h, Ne.symm hn]

theorem up_not_mem_foldl_push {stack : List Name} (h : Name.up ∉ stack) (names : List Name) :
    Name.up ∉ names.foldl (push true) stack := by
  induction names generalizing stack with
  | nil => exact h
  | cons n names ih => exact ih (up_not_mem_push h n)

/-! ## Normalizing -/

theorem normalize_normal {p : Path} (h : p.isAbsolute = true) : p.normalize.Normal := by
  refine ⟨h, ?_⟩
  rw [normalize, h, List.mem_reverse]
  exact up_not_mem_foldl_push List.not_mem_nil p.names

theorem Normal.normalize_eq {p : Path} (h : p.Normal) : p.normalize = p := by
  rw [normalize, foldl_push_plain h.plain, List.append_nil, List.reverse_reverse]

/-- Names behind an absolute path go on from its stack. -/
theorem normalize_append {p : Path} (h : p.isAbsolute = true) (names : List Name) :
    (⟨p.anchor, p.names ++ names⟩ : Path).normalize =
      ⟨p.anchor, (names.foldl (push true) (p.names.foldl (push true) [])).reverse⟩ := by
  have habs : Path.isAbsolute ⟨p.anchor, p.names ++ names⟩ = true := h
  rw [normalize, habs, List.foldl_append]

/-- A path with more names behind it. -/
theorem join_here (p : Path) (names : List Name) :
    p.join ⟨.here, names⟩ = ⟨p.anchor, p.names ++ names⟩ := by
  rw [join, if_neg (by simp [isAbsolute])]

theorem absolute_of_isAbsolute {p : Path} (base : Path) (h : p.isAbsolute = true) :
    absolute base p = p.normalize := by
  rw [absolute, join, if_pos h]

theorem Normal.absolute_eq {p : Path} (h : p.Normal) (base : Path) : Path.absolute base p = p := by
  rw [absolute_of_isAbsolute base h.absolute, h.normalize_eq]

theorem Normal.parent {p : Path} (h : p.Normal) : p.parent.Normal :=
  ⟨h.absolute, fun hup => h.plain (List.dropLast_subset _ hup)⟩

theorem Normal.of_append {p : Path} (h : p.Normal) {names : List Name} (hn : Name.up ∉ names) :
    (⟨p.anchor, p.names ++ names⟩ : Path).Normal :=
  ⟨h.absolute, by simp [h.plain, hn]⟩

/-! ## Relative paths lead back -/

/-- From the directory `start`, the relative path to another place leads to that place. -/
theorem normalize_join_relativeTo {start place : Path} (base : Path) (hs : start.isAbsolute = true)
    (ht : place.isAbsolute = true) :
    (start.join (relativeTo base start place)).normalize =
      ⟨start.anchor, place.normalize.names⟩ := by
  have hstack : Name.up ∉ start.names.foldl (push true) [] :=
    up_not_mem_foldl_push List.not_mem_nil start.names
  have hstart : (absolute base start).names = (start.names.foldl (push true) []).reverse := by
    rw [absolute_of_isAbsolute base hs, normalize, hs]
  have hto : (absolute base place).names = place.normalize.names := by
    rw [absolute_of_isAbsolute base ht]
  have hplain : Name.up ∉ (absolute base start).names := by
    rw [hstart]
    simpa using hstack
  have hfold : (offset (absolute base start).names place.normalize.names).foldl (push true)
      ((absolute base start).names.reverse ++ []) = place.normalize.names.reverse ++ [] :=
    foldl_push_offset hplain (normalize_normal ht).plain []
  rw [hstart, List.reverse_reverse, List.append_nil, List.append_nil] at hfold
  rw [relativeTo, join_here, normalize_append hs, hto, hstart, hfold, List.reverse_reverse]

/-- **A relative path leads back.** A document reads the path from its directory to some place, and
finds the place if both start at the same root. -/
theorem refer_relativeTo {file place : Path} (base : Path) (hf : file.isAbsolute = true)
    (ha : place.anchor = file.anchor) :
    Document.refer file (relativeTo base file.parent place).toText = place.normalize := by
  have ht : place.isAbsolute = true := by
    rw [isAbsolute, ha]
    exact hf
  have hs : file.parent.isAbsolute = true := hf
  rw [Document.refer, ofText_toText, normalize_join_relativeTo base hs ht]
  exact congrArg (Path.mk · _) ha.symm

/-! ## Offsets below another root -/

/-- A common beginning does not count for the way from one place to another. -/
theorem offset_append (root as bs : List Name) :
    offset (root ++ as) (root ++ bs) = offset as bs := by
  induction root with
  | nil => rfl
  | cons r root ih => rw [List.cons_append, List.cons_append, offset, if_pos rfl, ih]

theorem targetOf_normal {base file target other : Path} (h : target.isAbsolute = true) :
    (Document.targetOf base file target other).Normal := by
  refine normalize_normal ?_
  rw [relativeTo, join_here]
  exact h

/-- What two normal paths have in common does not count for the way from one to the other. -/
theorem relativeTo_append {start place : Path} {common as bs : List Name} (base : Path)
    (hstart : start.Normal) (hplace : place.Normal) (hs : start.names = common ++ as)
    (hp : place.names = common ++ bs) : relativeTo base start place = ⟨.here, offset as bs⟩ := by
  rw [relativeTo, hstart.absolute_eq, hplace.absolute_eq, hs, hp, offset_append]

/-- **Below one directory, offsets are kept below another.** If a document with the names `as` below
the directory `source` has its copy at the same names below `target`, then so has every document
below `source` that it refers to. -/
theorem targetOf_below {base source target file other : Path} {as bs : List Name}
    (hfile : file.Normal) (hother : other.Normal) (htarget : target.Normal)
    (hf : file.names = source.names ++ as) (ho : other.names = source.names ++ bs)
    (has : as ≠ []) :
    Document.targetOf base file ⟨target.anchor, target.names ++ as⟩ other =
      ⟨target.anchor, target.names ++ bs⟩ := by
  have hparent : file.parent.names = source.names ++ as.dropLast := by
    rw [parent, hf, List.dropLast_append_of_ne_nil has]
  have hplain : Name.up ∉ source.names ++ as.dropLast := hparent ▸ hfile.parent.plain
  have hplain' : Name.up ∉ source.names ++ bs := ho ▸ hother.plain
  rw [List.mem_append, not_or] at hplain hplain'
  have hrel : relativeTo base file.parent other = ⟨.here, offset as.dropLast bs⟩ :=
    relativeTo_append base hfile.parent hother hparent ho
  have hstart : (target.names ++ as.dropLast).foldl (push true) [] =
      as.dropLast.reverse ++ target.names.reverse := by
    rw [foldl_push_plain (by simp [htarget.plain, hplain.2]), List.reverse_append, List.append_nil]
  have hcopy : (⟨target.anchor, target.names ++ as⟩ : Path).parent =
      ⟨target.anchor, target.names ++ as.dropLast⟩ := by
    rw [parent, List.dropLast_append_of_ne_nil has]
  rw [Document.targetOf, hrel, join_here, hcopy,
    normalize_append (p := ⟨target.anchor, target.names ++ as.dropLast⟩) htarget.absolute, hstart,
    foldl_push_offset hplain.2 hplain'.2, List.reverse_append, List.reverse_reverse,
    List.reverse_reverse]

end Path

end Folio

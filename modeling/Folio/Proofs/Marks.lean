import Folio.Document

/-!
# The mark of a reference

The further text of a reference is a list with commas between its parts, and the mark that keeps a
document in its place is one of these parts. To look for it, the text is cut twice, at commas and
then at signs of equality. **This is one search for a text**: if a comma is put in front of the list
and one behind it, every part has a comma on either side, the first and the last one too, so the
mark is a part just if it stands there between two commas (`Text.infix_fenced_iff`).

Main result: `Document.isMarked_iff_between_commas`.
-/

namespace Folio

/-! ## Parts between separators -/

namespace Text

variable {sep : Char} {p q t : Text} {parts : List Text}

/-- The parts one after another, each with a separator in front, and a separator behind the
last one. -/
def fenced (sep : Char) : List Text → Text
  | [] => [sep]
  | p :: ps => sep :: p ++ fenced sep ps

theorem fenced_eq_join (h : parts ≠ []) : fenced sep parts = sep :: join [sep] parts ++ [sep] := by
  induction parts with
  | nil => exact absurd rfl h
  | cons p ps ih =>
      cases ps with
      | nil => rfl
      | cons q qs =>
          rw [fenced, ih (List.cons_ne_nil q qs), join]
          simp

theorem fenced_splitOn (sep : Char) (s : Text) :
    fenced sep (splitOn sep s) = sep :: s ++ [sep] := by
  rw [fenced_eq_join (splitOn_ne_nil sep s), join_splitOn]

theorem exists_fenced_eq_cons (sep : Char) (parts : List Text) :
    ∃ rest, fenced sep parts = sep :: rest := by
  cases parts with
  | nil => exact ⟨[], rfl⟩
  | cons p ps => exact ⟨p ++ fenced sep ps, rfl⟩

/-- What begins with a separator is not begun inside a part. -/
theorem infix_append_iff (h : sep ∉ q) : sep :: p <:+: q ++ t ↔ sep :: p <:+: t := by
  induction q with
  | nil => rfl
  | cons c q ih =>
      rw [List.mem_cons, not_or] at h
      rw [List.cons_append, List.infix_cons_iff, ih h.2, List.cons_prefix_cons]
      exact or_iff_right fun hstart => h.1 hstart.1

/-- **A text is a part just if it stands between two separators.** -/
theorem infix_fenced_iff (hp : sep ∉ p) (hparts : ∀ q ∈ parts, sep ∉ q) :
    sep :: p ++ [sep] <:+: fenced sep parts ↔ p ∈ parts := by
  induction parts with
  | nil =>
      have hlong : ¬ sep :: p ++ [sep] <:+: [sep] := fun h => by simpa using h.length_le
      simpa [fenced] using hlong
  | cons q qs ih =>
      rw [List.forall_mem_cons] at hparts
      obtain ⟨rest, hrest⟩ := exists_fenced_eq_cons sep qs
      -- the text and the first part end at the same separator
      have hfirst : p ++ [sep] <+: q ++ fenced sep qs ↔ p = q := by
        rw [hrest]
        constructor
        · rintro ⟨u, hu⟩
          rw [List.append_assoc, List.singleton_append] at hu
          have hcut := congrArg (splitOn sep) hu
          rw [Path.splitOn_append_cons hp, Path.splitOn_append_cons hparts.1] at hcut
          exact (List.cons.inj hcut).1
        · rintro rfl
          exact ⟨rest, by simp⟩
      rw [fenced, List.cons_append, List.cons_append, List.infix_cons_iff, List.cons_prefix_cons,
        and_iff_right rfl, hfirst, infix_append_iff hparts.1, ← List.cons_append, ih hparts.2,
        List.mem_cons]

end Text

/-! ## The mark -/

namespace Document

/-- The mark, as it is written. -/
def mark : Text := markName ++ '=' :: markValue

theorem splitOn_eq_mark_iff {part : Text} :
    Text.splitOn '=' part = [markName, markValue] ↔ part = mark := by
  constructor
  · intro h
    rw [← Text.join_splitOn '=' part, h]
    rfl
  · rintro rfl
    decide

theorem isMarked_iff_mem {further : Text} :
    isMarked further = true ↔ mark ∈ Text.splitOn ',' further := by
  simp [isMarked, splitOn_eq_mark_iff]

/-- **A reference is marked just if its mark stands between two commas**, where one is put in front
of its further text and one behind it. So the mark is found at every place of a list of any length,
and nothing but the mark itself is one. -/
theorem isMarked_iff_between_commas (further : Text) :
    (isMarked further = true ↔ ",confluence=include,".toList <:+: ',' :: further ++ [',']) ∧
    ∀ parts, (∀ p ∈ parts, ',' ∉ p) → further = Text.join [','] parts →
      (isMarked further = true ↔ "confluence=include".toList ∈ parts) := by
  have hmark : ',' ∉ mark := by decide
  constructor
  · rw [isMarked_iff_mem, ← Text.fenced_splitOn]
    exact (Text.infix_fenced_iff hmark (Text.splitOn_not_mem ',' further)).symm
  · rintro parts hparts rfl
    cases hnil : parts with
    | nil => decide
    | cons p ps =>
        rw [hnil] at hparts
        rw [isMarked_iff_mem, Path.splitOn_join (List.cons_ne_nil p ps) hparts]
        rfl

/-- A mark that is no part of its own, and one at the end. -/
theorem isMarked_between_commas_last :
    let parts := ["leveloffset=+1".toList, " confluence=include".toList, [],
      "confluence=include=x".toList, "confluence=include".toList]
    (∀ p ∈ parts, ',' ∉ p) ∧ isMarked (Text.join [','] parts) = true ∧
    isMarked (Text.join [','] parts.dropLast) = false := by
  intro parts
  have hparts : ∀ p ∈ parts, ',' ∉ p := by decide
  refine ⟨hparts, ((isMarked_iff_between_commas _).2 parts hparts rfl).2 (by decide), ?_⟩
  rw [Bool.eq_false_iff]
  intro h
  exact absurd (((isMarked_iff_between_commas _).2 parts.dropLast (by decide) rfl).1 h) (by decide)

end Document

end Folio

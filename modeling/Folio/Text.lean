/-!
# Texts

Lines, file names and attribute values are all texts. A text is the list of its characters, so
that every function below is a recursion on that list and can be reasoned about as one.

* `Text.splitOn` and `Text.join` cut a text at a separator and put it together again.
* `Text.replaceAll` replaces every occurrence of one text by another, left to right.
* `Text.lines` cuts a text into its lines, whichever of the three line ends it uses.

Main results: `join_splitOn`, cutting loses nothing; `splitOn_not_mem`, no piece holds the
separator.
-/

namespace Folio

/-- A text is the list of its characters. -/
abbrev Text := List Char

namespace Text

/-! ## Cutting and joining -/

/-- The pieces of a text between the occurrences of `sep`, empty pieces included. -/
def splitOn (sep : Char) : Text → List Text
  | [] => [[]]
  | c :: s =>
      if c = sep then [] :: splitOn sep s
      else
        match splitOn sep s with
        | [] => [[c]]
        | p :: ps => (c :: p) :: ps

/-- The pieces one after another, with `sep` between neighbours. -/
def join (sep : Text) : List Text → Text
  | [] => []
  | [p] => p
  | p :: q :: ps => p ++ sep ++ join sep (q :: ps)

theorem splitOn_ne_nil (sep : Char) (s : Text) : splitOn sep s ≠ [] := by
  cases s with
  | nil => simp [splitOn]
  | cons c s =>
      rw [splitOn]
      split
      · simp
      · split <;> simp

theorem join_splitOn (sep : Char) (s : Text) : join [sep] (splitOn sep s) = s := by
  induction s with
  | nil => rfl
  | cons c s ih =>
      obtain ⟨p, ps, hp⟩ := List.exists_cons_of_ne_nil (splitOn_ne_nil sep s)
      rw [hp] at ih
      by_cases hc : c = sep
      · subst hc
        simp [splitOn, hp, join, ih]
      · cases ps with
        | nil => simpa [splitOn, hc, hp, join] using ih
        | cons q qs => simpa [splitOn, hc, hp, join] using ih

theorem splitOn_not_mem (sep : Char) (s : Text) : ∀ p ∈ splitOn sep s, sep ∉ p := by
  induction s with
  | nil => simp [splitOn]
  | cons c s ih =>
      obtain ⟨q, qs, hq⟩ := List.exists_cons_of_ne_nil (splitOn_ne_nil sep s)
      rw [hq] at ih
      by_cases hc : c = sep
      · simpa [splitOn, hc, hq] using ih
      · simp only [splitOn, hc, hq, if_false, List.mem_cons, forall_eq_or_imp] at ih ⊢
        exact ⟨by simpa [Ne.symm hc] using ih.1, ih.2⟩

/-! ## Occurrences -/

/-- What follows `start` in a text that begins with it. -/
def after? : Text → Text → Option Text
  | [], s => some s
  | _ :: _, [] => none
  | a :: start, c :: s => if a = c then after? start s else none

theorem after?_eq_some_iff {start s rest : Text} :
    after? start s = some rest ↔ s = start ++ rest := by
  induction start generalizing s with
  | nil => simp [after?, eq_comm]
  | cons a start ih =>
      cases s with
      | nil => simp [after?]
      | cons c s =>
          by_cases h : a = c
          · subst h
            simp [after?, ih]
          · simp [after?, h, Ne.symm h]

/-- Replaces `old` by `new` from left to right; the first argument counts the characters still to
be skipped because they belong to the occurrence replaced last. -/
def replaceFrom (old new : Text) : Nat → Text → Text
  | _, [] => []
  | skip + 1, _ :: s => replaceFrom old new skip s
  | 0, c :: s =>
      if old.isPrefixOf (c :: s) then new ++ replaceFrom old new (old.length - 1) s
      else c :: replaceFrom old new 0 s

/-- The text with every occurrence of `old` replaced by `new`; the replaced text is not searched
again. -/
def replaceAll (old new s : Text) : Text := replaceFrom old new 0 s

/-! ## Lines -/

/-- The text with every line end, be it `\r\n`, `\r` or `\n`, written as `\n`. -/
def unifyLineEnds : Text → Text
  | [] => []
  | '\r' :: '\n' :: s => '\n' :: unifyLineEnds s
  | '\r' :: s => '\n' :: unifyLineEnds s
  | c :: s => c :: unifyLineEnds s

/-- The pieces of a text that each end at a `\n`, without it; a last piece without a `\n` counts
if it is not empty. -/
def pieces : Text → List Text
  | [] => []
  | c :: s =>
      if c = '\n' then [] :: pieces s
      else
        match pieces s with
        | [] => [[c]]
        | l :: ls => (c :: l) :: ls

/-- The lines of a text, without their line ends. -/
def lines (s : Text) : List Text := pieces (unifyLineEnds s)

/-- The text of some lines: each is followed by a `\n`. -/
def ofLines : List Text → Text
  | [] => []
  | l :: ls => l ++ '\n' :: ofLines ls

/-! ## Order -/

/-- Alphabetical order by code point: `s` does not come after `t`. -/
def le : Text → Text → Bool
  | [], _ => true
  | _ :: _, [] => false
  | a :: s, b :: t => if a = b then le s t else decide (a.val < b.val)

end Text

end Folio

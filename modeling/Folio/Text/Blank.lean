import Folio.Text

/-!
# White space

The characters that Unicode counts as white space for the purpose of cutting a text into words:
the separators of space, line and paragraph, and the control characters that the bidirectional
algorithm treats as one of these. The zero width space is none of them.

* `Text.trim` takes white space off the ends of a text.
* `Text.words` cuts a text into its words.

Main results: `isWhitespace_isBlank`, the ASCII white space of the core library is white space here;
`trim_eq_nil_iff`, trimming leaves nothing just of texts of white space.
-/

namespace Folio

/-! ## The table -/

/-- The ranges of white space characters, by first and last code point. -/
def blankRanges : List (Nat × Nat) :=
  [(0x09, 0x0D), (0x1C, 0x20), (0x85, 0x85), (0xA0, 0xA0), (0x1680, 0x1680), (0x2000, 0x200A),
    (0x2028, 0x2029), (0x202F, 0x202F), (0x205F, 0x205F), (0x3000, 0x3000)]

/-- White space: the character lies in one of the ranges. -/
def isBlank (c : Char) : Bool :=
  blankRanges.any fun r => decide (r.1 ≤ c.toNat) && decide (c.toNat ≤ r.2)

theorem isWhitespace_isBlank {c : Char} (h : c.isWhitespace = true) : isBlank c = true := by
  simp only [Char.isWhitespace, Bool.or_eq_true, decide_eq_true_eq] at h
  rcases h with ((rfl | rfl) | rfl) | rfl <;> decide

/-! ## Trimming -/

namespace Text

/-- The text without the white space in front. -/
def trimLeft (s : Text) : Text := s.dropWhile isBlank

/-- The text without the white space at its end. -/
def trimRight (s : Text) : Text := (s.reverse.dropWhile isBlank).reverse

/-- The text without the white space at either end. -/
def trim (s : Text) : Text := trimRight (trimLeft s)

theorem trimLeft_eq_nil_iff {s : Text} : trimLeft s = [] ↔ ∀ c ∈ s, isBlank c = true := by
  induction s with
  | nil => exact ⟨fun _ _ h => (nomatch h), fun _ => rfl⟩
  | cons c s ih =>
      rw [trimLeft] at ih ⊢
      rw [List.dropWhile_cons, List.forall_mem_cons]
      by_cases h : isBlank c = true
      · rw [if_pos h, ih]
        exact (and_iff_right h).symm
      · rw [if_neg h]
        exact ⟨fun e => (nomatch e), fun e => absurd e.1 h⟩

theorem trimRight_eq_nil_iff {s : Text} : trimRight s = [] ↔ ∀ c ∈ s, isBlank c = true := by
  rw [trimRight, List.reverse_eq_nil_iff]
  constructor
  · intro h c hc
    exact trimLeft_eq_nil_iff.1 h c (List.mem_reverse.2 hc)
  · intro h
    exact trimLeft_eq_nil_iff.2 fun c hc => h c (List.mem_reverse.1 hc)

theorem trim_eq_nil_iff {s : Text} : trim s = [] ↔ ∀ c ∈ s, isBlank c = true := by
  rw [trim, trimRight_eq_nil_iff]
  constructor
  · intro h c hc
    rw [← List.takeWhile_append_dropWhile (p := isBlank) (l := s)] at hc
    rcases List.mem_append.1 hc with hc | hc
    · exact List.all_eq_true.1 List.all_takeWhile c hc
    · exact h c hc
  · intro h c hc
    exact h c ((List.dropWhile_sublist _).mem hc)

/-! ## Words -/

/-- The pieces of a text between its characters of white space, empty pieces included. -/
def splitBlank : Text → List Text
  | [] => [[]]
  | c :: s =>
      if isBlank c then [] :: splitBlank s
      else
        match splitBlank s with
        | [] => [[c]]
        | p :: ps => (c :: p) :: ps

def words (s : Text) : List Text := (splitBlank s).filter (· != [])

end Text

end Folio

import Folio.Proofs.Decoding
import Folio.Proofs.Parallel
import Folio.Proofs.Writing

/-!
# What is written is read again

A file is written as one text, in which every line is followed by the same line end, and read as a
text that may have any line ends. **The lines that are read are those that have been written** if no
line holds a character of a line end: then there is nothing to unify, and a text is cut just where
its lines were put together (`Text.lines_ofLines`). The bytes in between are told apart by
`Encoding.decode_encode`.

Main result: `Document.read_of_write`, for every encoding, every path and every file tree.
-/

namespace Folio

/-! ## Lines and their text -/

namespace Text

theorem unifyLineEnds_of_not_mem {s : Text} (h : '\r' ∉ s) : unifyLineEnds s = s := by
  induction s with
  | nil => rfl
  | cons c s ih =>
      rw [List.mem_cons, not_or] at h
      rw [unifyLineEnds, ih h.2]
      · exact fun _ hc _ => h.1 hc.symm
      · exact fun hc => h.1 hc.symm

theorem pieces_append {l : Text} (h : '\n' ∉ l) (s : Text) :
    pieces (l ++ '\n' :: s) = l :: pieces s := by
  induction l with
  | nil => rfl
  | cons c l ih =>
      rw [List.mem_cons, not_or] at h
      rw [List.cons_append, pieces, if_neg (Ne.symm h.1), ih h.2]

theorem pieces_ofLines {ls : List Text} (h : ∀ l ∈ ls, '\n' ∉ l) : pieces (ofLines ls) = ls := by
  induction ls with
  | nil => rfl
  | cons l ls ih =>
      rw [List.forall_mem_cons] at h
      rw [ofLines, pieces_append h.1, ih h.2]

theorem not_mem_ofLines {c : Char} {ls : List Text} (hc : c ≠ '\n') (h : ∀ l ∈ ls, c ∉ l) :
    c ∉ ofLines ls := by
  induction ls with
  | nil => exact List.not_mem_nil
  | cons l ls ih =>
      rw [List.forall_mem_cons] at h
      rw [ofLines, List.mem_append, List.mem_cons, not_or, not_or]
      exact ⟨h.1, hc, ih h.2⟩

/-- **A text is cut into the lines of which it is made.** -/
theorem lines_ofLines {ls : List Text} (h : ∀ l ∈ ls, '\n' ∉ l ∧ '\r' ∉ l) :
    (ofLines ls).lines = ls := by
  have hreturn : '\r' ∉ ofLines ls := not_mem_ofLines (by decide) fun l hl => (h l hl).2
  rw [lines, unifyLineEnds_of_not_mem hreturn]
  exact pieces_ofLines fun l hl => (h l hl).1

end Text

/-! ## Files -/

namespace Document

open FileTree

variable {t : FileTree} {p : Path} {encoding : Text} {lines : List Text} {bytes : List UInt8}

theorem lines?_of_encodes (h : Encodes encoding lines bytes) :
    lines? encoding bytes = some (Text.ofLines lines).lines := by
  obtain ⟨-, e, hname, htext, hbytes⟩ := h
  rw [lines?, hname]
  simp only [htext, if_true, Encoding.decode_encode hbytes, Option.map_some]

/-- **What is written is read again**: lines without line ends inside of them are just those that
are found in the file afterwards. -/
theorem read_of_write (hlines : ∀ l ∈ lines, '\n' ∉ l ∧ '\r' ∉ l)
    (h : (write t p encoding lines).2 = .ok ()) :
    read (write t p encoding lines).1 p encoding = .ok lines := by
  obtain ⟨bytes, hbytes, hread⟩ := readFile_of_write h
  rw [read_eq_ok_iff]
  refine ⟨hbytes.1, bytes, hread, ?_⟩
  rw [lines?_of_encodes hbytes, Text.lines_ofLines hlines]

/-- The same lines in many encodings: none at all, and some of which the first begins with the
character that other encodings write as a mark. -/
theorem read_of_write_marked :
    let t := FileTree.empty []
    let p : Path := .ofText "/out/index.adoc".toList
    let unicode := ["utf-8", "UTF-8-SIG", "utf-16", "utf-16-le", "utf-16-be", "utf-32", "utf-32-le",
      "utf-32-be"].map String.toList
    let bytewise := ["ascii", "latin-1", "iso-8859-15", "cp1252"].map String.toList
    let marked := ["\uFEFF= Title", "", "𝔸 ü €", ""].map String.toList
    let plain := ["", "= Title", ""].map String.toList
    (∀ encoding ∈ unicode, (write t p encoding marked).2 = .ok () ∧
      read (write t p encoding marked).1 p encoding = .ok marked) ∧
    ∀ encoding ∈ unicode ++ bytewise, ∀ lines ∈ [[], plain],
      (write t p encoding lines).2 = .ok () ∧
        read (write t p encoding lines).1 p encoding = .ok lines := by
  intro t p unicode bytewise marked plain
  have hmarked : ∀ encoding ∈ unicode, (write t p encoding marked).2 = .ok () := by
    decide +kernel
  have hplain : ∀ encoding ∈ unicode ++ bytewise, ∀ lines ∈ [[], plain],
      (write t p encoding lines).2 = .ok () := by
    decide +kernel
  refine ⟨fun encoding he => ⟨hmarked encoding he, ?_⟩,
    fun encoding he lines hl => ⟨hplain encoding he lines hl, ?_⟩⟩
  · exact read_of_write (by decide +kernel) (hmarked encoding he)
  · have hends : ∀ lines ∈ [[], plain], ∀ l ∈ lines, '\n' ∉ l ∧ '\r' ∉ l := by decide +kernel
    exact read_of_write (hends lines hl) (hplain encoding he lines hl)

end Document

end Folio

import Folio.Proofs.Failures
import Folio.Proofs.Parallel

/-!
# Copies that nothing is in the way of

What a run can fail at, when its documents can be read: a path about which it asks is too long, a
line has no bytes in the encoding, or there is no room for a copy. Here is when this does not
happen.

**Lines** (`Document.exists_encodes`). Lines can be written together if each of them can.

**Paths** (`FileTree.answers_of_short`). Without links, a tree can tell what stands at a path with
short names that is short as a whole.

**Room** (`FileTree.Written`). A tree that differs from another one by files at some places and
directories above them. If no place lies above another one, and nothing was at any of them or in the
way, then there is room at each place (`Unhindered.room`), and a file that is written there leaves
such a tree again (`Unhindered.write`). So files can be written at all places, **in any order and
any number of times** (`Unhindered.writeEach`).

A property of file trees that copies keep passes from one to the next (`Relink.copyEach_keeps`), and
from visit to visit (`Build.visits_keeps`).
-/

namespace Folio

open FileTree

/-! ## Lines -/

theorem SingleByte.encode_append {e : SingleByte} {s s' : Text} (h : (e.encode s).isSome)
    (h' : (e.encode s').isSome) : (e.encode (s ++ s')).isSome := by
  induction s with
  | nil => exact h'
  | cons c s ih =>
      rw [encode] at h
      rw [List.cons_append, encode]
      cases hbyte : e.byteOf? c.toNat with
      | none =>
          rw [hbyte] at h
          cases h
      | some b =>
          rw [hbyte, Option.isSome_map] at h
          exact Option.isSome_map.trans (ih h)

namespace Encoding

variable {e : Encoding}

theorem encodeWhole_append {s s' : Text} (h : (e.encodeWhole s).isSome)
    (h' : (e.encodeWhole s').isSome) : (e.encodeWhole (s ++ s')).isSome := by
  cases e with
  | ascii | latin1 | latin9 | windows1252 => exact SingleByte.encode_append h h'
  | utf8 | utf8Signed | utf16Marked | utf16 | utf32Marked | utf32 => rfl
  | conversion => cases h

theorem encodeInner_isSome_iff {s : Text} :
    (e.encodeInner s).isSome ↔ s.any Half.isHalf = false ∧ (e.encodeWhole s).isSome := by
  rw [encodeInner]
  split
  · next hhalf => simp [hhalf]
  · next hhalf => simp [hhalf]

theorem encodeInner_append {s s' : Text} (h : (e.encodeInner s).isSome)
    (h' : (e.encodeInner s').isSome) : (e.encodeInner (s ++ s')).isSome := by
  rw [encodeInner_isSome_iff] at h h' ⊢
  exact ⟨by rw [List.any_append, h.1, h'.1, Bool.or_false], encodeWhole_append h.2 h'.2⟩

theorem encodeInner_of_isText (h : e.isText = true) :
    (e.encodeInner []).isSome ∧ (e.encodeInner ['\n']).isSome := by
  cases e with
  | conversion => cases h
  | utf16 order | utf32 order => cases order <;> decide
  | _ => decide

/-- **Lines have bytes together** if each of them has. -/
theorem encode_ofLines (htext : e.isText = true) {lines : List Text}
    (h : ∀ l ∈ lines, (e.encodeInner l).isSome) : (e.encode (.ofLines lines)).isSome := by
  rw [encode, Option.isSome_map]
  induction lines with
  | nil => exact (encodeInner_of_isText htext).1
  | cons l ls ih =>
      rw [List.forall_mem_cons] at h
      have hrest : (e.encodeInner (['\n'] ++ Text.ofLines ls)).isSome :=
        encodeInner_append (encodeInner_of_isText htext).2 (ih h.2)
      exact encodeInner_append h.1 hrest

end Encoding

namespace Document

variable {encoding : Text}

/-- The line has bytes in the encoding of this name. -/
def isWritable (encoding : Text) (l : Text) : Bool :=
  ((Encoding.ofName? encoding).bind fun e => e.encodeInner l).isSome

theorem exists_encodes (hnull : '\x00' ∉ encoding) {e : Encoding}
    (he : Encoding.ofName? encoding = some e) (htext : e.isText = true) {lines : List Text}
    (h : ∀ l ∈ lines, isWritable encoding l) : ∃ bytes, Encodes encoding lines bytes := by
  have hsome : (e.encode (.ofLines lines)).isSome :=
    Encoding.encode_ofLines htext fun l hl => by simpa [isWritable, he] using h l hl
  obtain ⟨bytes, hbytes⟩ := Option.isSome_iff_exists.1 hsome
  exact ⟨bytes, hnull, e, he, htext, hbytes⟩

/-- The bytes of a document have lines only in an encoding that has texts. -/
theorem exists_text_of_lines? {content : List UInt8} (h : (lines? encoding content).isSome) :
    ∃ e, Encoding.ofName? encoding = some e ∧ e.isText = true := by
  rw [lines?] at h
  split at h
  · cases h
  · next e he =>
      split at h
      · next htext => exact ⟨e, he, htext⟩
      · cases h

end Document

/-! ## Paths -/

namespace FileTree

variable {t u w : FileTree} {p q : Path} {loc : Location}

theorem exists_long_of_follow (ht : t.LinkFree)
    {jump : Bool → Location → List Name → Except Fault Place} {toDirectory : Bool}
    {names : List Name} (h : t.follow jump toDirectory loc names = .error .tooLong) :
    ∃ n ∈ names, nameLimit < n.text.byteLength := by
  rw [follow_eq_tooLong_iff] at h
  induction h with
  | here _ _ hlong => exact ⟨_, List.mem_cons_self, hlong⟩
  | up _ _ ih => exact ih.imp fun _ h => ⟨List.mem_cons_of_mem _ h.1, h.2⟩
  | link _ _ hlink _ => exact absurd hlink (ht _ _)
  | name _ _ _ _ _ ih => exact ih.imp fun _ h => ⟨List.mem_cons_of_mem _ h.1, h.2⟩

/-- **A tree can tell what stands at a short path** with short names. -/
theorem answers_of_short (ht : t.LinkFree) (hp : p.isAbsolute = true)
    (hshort : refusal? p ≠ some .tooLong) (hnames : ∀ n ∈ p.names, n.text.byteLength ≤ nameLimit) :
    t.Answers p := by
  rw [answers_iff, resolve]
  cases hrefusal : refusal? p with
  | some f =>
      rintro hlong
      exact hshort (hrefusal.trans (congrArg some (Except.error.inj hlong)))
  | none =>
      intro hlong
      obtain ⟨jump, hwalk⟩ := t.exists_walk_eq linkLimit
      simp only [hwalk, namesOf, hp, if_true] at hlong
      obtain ⟨n, hn, hlong⟩ := exists_long_of_follow ht hlong
      exact absurd (hnames n hn) (by omega)

/-! ## Room -/

/-- `u` is `t` with files at some places and directories above them, and with no directory at a
place. -/
structure Written (places : Path → Prop) (t u : FileTree) : Prop where
  changes : Changes places t u
  here : ∀ p, places p → u.entryAt p.location ≠ some .directory

variable {places : Path → Prop}

/-- Nothing is in the way of files at any of these places. -/
structure Unhindered (places : Path → Prop) (t : FileTree) : Prop where
  apart : ∀ p q, places p → places q → p.location <:+ q.location → p.location = q.location
  free : ∀ p, places p → t.entryAt p.location = none
  above : ∀ p, places p → ∀ loc, loc <:+ p.location → ∀ content,
    t.entryAt loc ≠ some (.file content)

theorem Unhindered.start (h : Unhindered places t) : Written places t t :=
  ⟨.refl _ t, fun p hp hdir => absurd (hdir.symm.trans (h.free p hp)) (by simp)⟩

/-- **There is room at each place**, also when there are files at some of them. -/
theorem Unhindered.room (h : Unhindered places t) (hu : Written places t u) (hp : places p) :
    Room u p := by
  refine ⟨fun loc hloc hne content hfile => ?_, hu.here p hp⟩
  rcases hu.changes loc with hsame | ⟨q, hq, rfl, -⟩ | ⟨-, -, -, -, hdir⟩
  · exact h.above p hp loc hloc content (hsame ▸ hfile)
  · exact hne (h.apart q p hq hp hloc)
  · exact absurd (hfile.symm.trans hdir) (by simp)

/-- **A document can be written at each place**, and leaves such a tree again. -/
theorem Unhindered.write (h : Unhindered places t) (ht : t.LinkFree) (hu : Written places t u)
    (hp : places p) (hnormal : p.Normal) (hfits : p.Nameable) {encoding : Text} {lines : List Text}
    {bytes : List UInt8} (hlines : Document.Encodes encoding lines bytes) :
    ∃ w, Document.write u p encoding lines = (w, .ok ()) ∧ Written places t w := by
  have hfree : u.LinkFree := ht.of_changes hu.changes
  obtain ⟨w, hwrite, hw⟩ := Document.write_made hfree hnormal hfits (h.room hu hp) hlines
  have hchanges : Changes (· = p) u w := by
    have hchanges := Document.write_changes hfree hnormal encoding lines
    rwa [hwrite] at hchanges
  refine ⟨w, hwrite, hu.changes.trans (hchanges.mono fun q hq => hq ▸ hp), fun q hq hdir => ?_⟩
  rw [hw, wrote] at hdir
  split at hdir
  · cases hdir
  · next hne =>
      split at hdir
      · next habove => exact hne (h.apart q p hq hp habove)
      · exact hu.here q hq hdir

end FileTree

/-! ## One after another -/

/-- Writes documents at paths, one after another, up to the first one that cannot be written. -/
def Document.writeEach (encoding : Text) :
    List (Path × List Text) → FileTree → FileTree × Except BuildError Unit
  | [], t => (t, .ok ())
  | (p, lines) :: docs, t =>
      match Document.write t p encoding lines with
      | (t, .ok ()) => writeEach encoding docs t
      | (t, .error e) => (t, .error e)

/-- **Documents can be written at the places in any order**, and any number of times. -/
theorem FileTree.Unhindered.writeEach {t u : FileTree} {places : Path → Prop}
    (h : Unhindered places t) (ht : t.LinkFree) (hu : Written places t u) {encoding : Text}
    {docs : List (Path × List Text)}
    (hdocs : ∀ d ∈ docs, places d.1 ∧ d.1.Normal ∧ d.1.Nameable ∧
      ∃ bytes, Document.Encodes encoding d.2 bytes) :
    ∃ w, Document.writeEach encoding docs u = (w, .ok ()) ∧ Written places t w := by
  induction docs generalizing u with
  | nil => exact ⟨u, rfl, hu⟩
  | cons d docs ih =>
      rw [List.forall_mem_cons] at hdocs
      obtain ⟨⟨hp, hnormal, hfits, bytes, hbytes⟩, hdocs⟩ := hdocs
      obtain ⟨w, hwrite, hw⟩ := h.write ht hu hp hnormal hfits hbytes
      rw [Document.writeEach, hwrite]
      exact ih hw hdocs

/-! ## What visits keep -/

namespace Relink

variable {how : Copying} {targets : Targets} {skip : List Path}

theorem copyLines?_of_lines {c : Copy} {ls out : List Text}
    (hread : Document.read c.tree c.file how.encoding = .ok ls)
    (hlines : (lines c how.kinds how.attributes ls).2 = .ok out) : copyLines? how c = some out := by
  rw [copyLines?, hread]
  simp only [hlines]
  rfl

theorem copy_of_write {c : Copy} {ls out : List Text} {es : List Event} {w : FileTree}
    (hread : Document.read c.tree c.file how.encoding = .ok ls)
    (hlines : lines c how.kinds how.attributes ls = (es, .ok out))
    (hwrite : Document.write c.tree c.target how.encoding out = (w, .ok ())) :
    copy how c.targets c.file c.target c.tree = ⟨w, .copied c.file c.target :: es, .ok ()⟩ := by
  rw [copy, hread]
  simp only [hlines, hwrite]

/-- **Copies can be made** one after another, if each of them can be made in a tree of some kind and
leaves such a tree. -/
theorem copyEach_keeps {P : FileTree → Prop} {docs : List (Path × Path)} {t : FileTree}
    (hstep : ∀ before file target after, docs = before ++ (file, target) :: after → target ∉ skip →
      P (copyEach how targets skip before t).tree →
      ∃ w es, copy how targets file target (copyEach how targets skip before t).tree =
        ⟨w, es, .ok ()⟩ ∧ P w)
    (ht : P t) :
    (copyEach how targets skip docs t).result.isOk ∧ P (copyEach how targets skip docs t).tree := by
  induction docs generalizing t with
  | nil => exact ⟨rfl, ht⟩
  | cons d docs ih =>
      obtain ⟨file, target⟩ := d
      by_cases hskip : target ∈ skip
      · rw [copyEach_cons_of_mem hskip]
        refine ih (fun before file' target' after hdocs hnew => ?_) ht
        have hnext := hstep ((file, target) :: before) file' target' after
          (congrArg ((file, target) :: ·) hdocs) hnew
        rwa [copyEach_cons_of_mem hskip] at hnext
      · obtain ⟨w, es, hcopy, hw⟩ := hstep [] file target docs rfl hskip ht
        have hcopy : copy how targets file target t = ⟨w, es, .ok ()⟩ := hcopy
        have hrest := ih (t := w) (fun before file' target' after hdocs hnew => by
          have hnext := hstep ((file, target) :: before) file' target' after
            (congrArg ((file, target) :: ·) hdocs) hnew
          rwa [copyEach_cons_of_ok hskip hcopy] at hnext) hw
        rw [copyEach_cons_of_ok hskip hcopy]
        refine ⟨?_, hrest.2⟩
        obtain ⟨new, hnew⟩ := Search.exists_ok_of_isOk hrest.1
        rw [hnew]
        rfl

end Relink

namespace Build

variable {b : Build}

theorem visitAll_keeps {P : FileTree → Prop} {docs : List (Path × Path)} {t : FileTree}
    {written : List Path}
    (hstep : ∀ v ∈ b.visitAll docs t written, P v.tree → ∀ new, (b.copies v).result = .ok new →
      P (b.copies v).tree)
    (ht : P t) : ∀ v ∈ b.visitAll docs t written, P v.tree := by
  induction docs generalizing t written with
  | nil => simp [visitAll]
  | cons d docs ih =>
      obtain ⟨file, target⟩ := d
      rw [visitAll, List.forall_mem_cons] at hstep ⊢
      refine ⟨ht, ?_⟩
      obtain ⟨hfirst, hrest⟩ := hstep
      split at hrest
      · simp
      · next pages hpage =>
          obtain ⟨page, new, hfound, hcopies, -⟩ :=
            makePage_eq_ok (v := ⟨t, written, file, target⟩) hpage
          have htree := congrArg Progress.tree (makePage_of_ok hfound hcopies)
          exact ih hrest (htree ▸ hfirst ht new hcopies)

/-- **What every visit finds**, if it holds at the start and visits keep it. -/
theorem visits_keeps {P : FileTree → Prop} {t : FileTree}
    (hstep : ∀ v ∈ b.visits t, P v.tree → ∀ new, (b.copies v).result = .ok new →
      P (b.copies v).tree)
    (ht : P t) : ∀ v ∈ b.visits t, P v.tree := by
  rw [visits] at hstep ⊢
  split at hstep
  · exact visitAll_keeps hstep ht
  · simp

end Build

end Folio

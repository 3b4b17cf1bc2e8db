import Folio.Proofs.WorkingTree

/-!
# What copies hold

Making a copy that does not fail leaves a file with the changed lines of the document, in the
encoding of the build. Copies are made one after another, so a copy is what it is when the last one
is made if no later copy goes to the same place.

* `Document.bytes?` and `Relink.copyLines?` say what the file of a copy should hold.
* `Relink.copyEach_append` cuts the making of copies in two, at any document.

Main result: `Relink.copyEach_holds`, where each copy is made in the file tree that the copies in
front of it have left.
-/

namespace Folio

open FileTree

/-! ## One file -/

theorem FileTree.writeFile_entryAt {t t' : FileTree} (ht : t.LinkFree) {p : Path} (hp : p.Normal)
    {content : List UInt8} (h : t.writeFile p content = .ok t') :
    t'.entryAt p.location = some (.file content) := by
  obtain ⟨place, hres, hput⟩ := writeFile_eq_ok h
  rw [hput, if_pos (resolve_eq_ok ht hp hres).symm]

/-- What stands apart from the changed files stays. -/
theorem FileTree.Changes.entryAt_eq {paths : Path → Prop} {t t' : FileTree}
    (h : Changes paths t t') {loc : Location} {e : Entry} (he : t.entryAt loc = some e)
    (hloc : ∀ p, paths p → loc ≠ p.location) : t'.entryAt loc = some e := by
  rcases h loc with heq | ⟨p, hp, hat, -⟩ | ⟨-, -, -, hnone, -⟩
  · rw [heq, he]
  · exact absurd hat (hloc p hp)
  · rw [he] at hnone
    exact absurd hnone (by simp)

namespace Document

/-- The bytes of a file with these lines, in the encoding of this name. -/
def bytes? (encoding : Text) (lines : List Text) : Option (List UInt8) :=
  (Encoding.ofName? encoding).bind fun e => e.encode (.ofLines lines)

/-- The lines can be written in the encoding of this name, and have these bytes there. -/
def Encodes (encoding : Text) (lines : List Text) (bytes : List UInt8) : Prop :=
  '\x00' ∉ encoding ∧ ∃ e, Encoding.ofName? encoding = some e ∧ e.isText = true ∧
    e.encode (.ofLines lines) = some bytes

variable {t u : FileTree} {p : Path} {encoding : Text} {lines : List Text} {bytes : List UInt8}

theorem fill_of_encodes (h : Encodes encoding lines bytes) (hwrite : t.writeFile p bytes = .ok u) :
    fill t p encoding lines = (u, .ok ()) := by
  obtain ⟨-, e, hname, htext, hbytes⟩ := h
  unfold fill
  simp only [hname, htext, hbytes, if_true, hwrite]

theorem encodes_of_fill (hnull : '\x00' ∉ encoding) (h : fill t p encoding lines = (u, .ok ())) :
    ∃ bytes, Encodes encoding lines bytes ∧ t.writeFile p bytes = .ok u := by
  unfold fill at h
  simp only at h
  split at h
  · exact absurd h (by simp)
  · next u' hwrite =>
      split at h
      · next hcause =>
          obtain rfl := (Prod.mk.inj h).1
          cases hname : Encoding.ofName? encoding with
          | none => simp [hname] at hcause
          | some e =>
              by_cases htext : e.isText = true
              · cases hbytes : e.encode (.ofLines lines) with
                | none => simp [hname, htext, hbytes] at hcause
                | some bytes =>
                    refine ⟨bytes, ⟨hnull, e, hname, htext, hbytes⟩, ?_⟩
                    simpa [hname, htext, hbytes] using hwrite
              · simp [hname, htext] at hcause
      · exact absurd h (by simp)

/-- What it takes to write lines: the directories above the file, bytes for the lines, and a file
that can be written. -/
theorem write_eq_ok_iff :
    write t p encoding lines = (u, .ok ()) ↔
      ∃ t' bytes, t.makeDirectories p.parent = (t', .ok ()) ∧ Encodes encoding lines bytes ∧
        t'.writeFile p bytes = .ok u := by
  constructor
  · intro h
    rw [write] at h
    split at h
    · exact absurd h (by simp)
    · next t' hmade =>
        split at h
        · exact absurd h (by simp)
        · next hnull =>
            obtain ⟨bytes, hlines, hwrite⟩ := encodes_of_fill hnull h
            exact ⟨t', bytes, hmade, hlines, hwrite⟩
  · rintro ⟨t', bytes, hmade, hlines, hwrite⟩
    rw [write, hmade]
    simp only [hlines.1, if_false]
    exact fill_of_encodes hlines hwrite

theorem write_eq_ok (ht : t.LinkFree) (hp : p.Normal)
    (h : write t p encoding lines = (u, .ok ())) :
    ∃ bytes, bytes? encoding lines = some bytes ∧
      u.entryAt p.location = some (.file bytes) := by
  have hdirs := makeDirectories_changes ht hp.parent (q := p.parent) List.suffix_rfl
  obtain ⟨t', bytes, hmade, ⟨-, e, hname, -, hbytes⟩, hwrite⟩ := write_eq_ok_iff.1 h
  rw [hmade] at hdirs
  refine ⟨bytes, ?_, writeFile_entryAt (ht.of_changes hdirs) hp hwrite⟩
  rw [bytes?, hname, Option.bind_some, hbytes]

end Document

/-! ## One copy -/

namespace Relink

def copyLines? (how : Copying) (c : Copy) : Option (List Text) :=
  match Document.read c.tree c.file how.encoding with
  | .error _ => none
  | .ok ls => (lines c how.kinds how.attributes ls).2.toOption

variable {how : Copying} {targets : Targets} {skip : List Path} {t : FileTree}

/-- A copy is made by writing its lines. -/
theorem copy_of_some {file target : Path} {out : List Text}
    (h : copyLines? how ⟨t, targets, file, target⟩ = some out) :
    (copy how targets file target t).tree = (Document.write t target how.encoding out).1 ∧
      (copy how targets file target t).result = (Document.write t target how.encoding out).2 := by
  rw [copyLines?] at h
  rw [copy]
  split at h
  · exact absurd h (by simp)
  · next ls hread =>
      simp only [hread]
      cases hlines : lines ⟨t, targets, file, target⟩ how.kinds how.attributes ls with
      | mk es r =>
          rw [hlines] at h
          cases r with
          | error f => exact absurd h (by simp [Except.toOption])
          | ok out' =>
              obtain rfl := Option.some.inj h
              exact ⟨rfl, rfl⟩

/-- Without lines, nothing is done. -/
theorem copy_of_none {file target : Path}
    (h : copyLines? how ⟨t, targets, file, target⟩ = none) :
    (copy how targets file target t).tree = t ∧
      (copy how targets file target t).result ≠ .ok () := by
  rw [copyLines?] at h
  rw [copy]
  split at h
  · next hread => simp [hread]
  · next ls hread =>
      simp only [hread]
      cases hlines : lines ⟨t, targets, file, target⟩ how.kinds how.attributes ls with
      | mk es r =>
          rw [hlines] at h
          cases r with
          | error f => simp
          | ok out => exact absurd h (by simp [Except.toOption])

/-- A copy that has been made had lines, and they have been written. -/
theorem copy_written {file target : Path} (h : (copy how targets file target t).result = .ok ()) :
    ∃ out, copyLines? how ⟨t, targets, file, target⟩ = some out ∧
      Document.write t target how.encoding out =
        ((copy how targets file target t).tree, .ok ()) := by
  cases hout : copyLines? how ⟨t, targets, file, target⟩ with
  | none => exact absurd h (copy_of_none hout).2
  | some out =>
      obtain ⟨htree, hresult⟩ := copy_of_some hout
      exact ⟨out, rfl, Prod.ext htree.symm (hresult.symm.trans h)⟩

theorem copy_holds (ht : t.LinkFree) {file target : Path} (hp : target.Normal)
    (h : (copy how targets file target t).result = .ok ()) :
    ∃ out bytes, copyLines? how ⟨t, targets, file, target⟩ = some out ∧
      Document.bytes? how.encoding out = some bytes ∧
      (copy how targets file target t).tree.entryAt target.location = some (.file bytes) := by
  obtain ⟨out, hout, hwrite⟩ := copy_written h
  obtain ⟨bytes, hbytes, hentry⟩ := Document.write_eq_ok ht hp hwrite
  exact ⟨out, bytes, hout, hbytes, hentry⟩

theorem copy_changes_target (ht : t.LinkFree) {file target : Path} (hp : target.Normal) :
    Changes (· = target) t (copy how targets file target t).tree := by
  refine (copy_changes (P := fun _ p => p = target) ht how targets hp rfl).mono ?_
  rintro p ⟨-, -, hp⟩
  exact hp

/-! ## Copies one after another -/

end Relink

namespace Outcome

/-- Goes on with further copies if those so far could be made. -/
def andThen (o : Outcome (List Path)) (next : FileTree → Outcome (List Path)) :
    Outcome (List Path) :=
  match o.result with
  | .error _ => o
  | .ok new =>
      let o' := next o.tree
      ⟨o'.tree, o.events ++ o'.events, o'.result.map (new ++ ·)⟩

variable (next next' : FileTree → Outcome (List Path))

theorem nothing_andThen (t : FileTree) : andThen ⟨t, [], .ok []⟩ next = next t := by
  rw [andThen]
  cases next t with
  | mk u es r => cases r <;> rfl

theorem andThen_assoc (o : Outcome (List Path)) :
    (o.andThen next).andThen next' = o.andThen fun t => (next t).andThen next' := by
  cases o with
  | mk t es r =>
      cases r with
      | error e => rfl
      | ok new =>
          simp only [andThen]
          cases next t with
          | mk u es' r' =>
              cases r' with
              | error e => rfl
              | ok new' =>
                  simp only [Except.map, List.append_assoc]
                  cases (next' u).result <;> simp

/-- Copies that are made without a failure are made in both parts. -/
theorem andThen_eq_ok {o : Outcome (List Path)} {new : List Path}
    (h : (o.andThen next).result = .ok new) :
    ∃ first rest, o.result = .ok first ∧ (next o.tree).result = .ok rest ∧ new = first ++ rest ∧
      (o.andThen next).tree = (next o.tree).tree := by
  cases o with
  | mk t es r =>
      cases r with
      | error e => exact absurd h (by simp [andThen])
      | ok first =>
          have hmap : (next t).result.map (first ++ ·) = .ok new := h
          cases hnext : (next t).result with
          | error e =>
              rw [hnext] at hmap
              cases hmap
          | ok rest =>
              rw [hnext] at hmap
              exact ⟨first, rest, rfl, rfl, (Except.ok.inj hmap).symm, rfl⟩

end Outcome

namespace Relink

variable {how : Copying} {targets : Targets} {skip : List Path} {t : FileTree}
  {file target : Path}

theorem copyEach_cons_of_mem {docs : List (Path × Path)} (h : target ∈ skip) :
    copyEach how targets skip ((file, target) :: docs) t = copyEach how targets skip docs t := by
  rw [copyEach, if_pos h]

theorem copyEach_cons (d : Path × Path) (docs : List (Path × Path)) :
    copyEach how targets skip (d :: docs) t =
      (copyEach how targets skip [d] t).andThen (copyEach how targets skip docs) := by
  obtain ⟨file, target⟩ := d
  rw [copyEach, copyEach]
  by_cases hskip : target ∈ skip
  · rw [if_pos hskip, if_pos hskip, copyEach, Outcome.nothing_andThen]
  · rw [if_neg hskip, if_neg hskip]
    cases copy how targets file target t with
    | mk u es r =>
        cases r with
        | error e => rfl
        | ok x => simp [copyEach, Outcome.andThen, Except.map]

/-- **The making of copies, cut in two**, whether they can be made or not. -/
theorem copyEach_append_eq (docs docs' : List (Path × Path)) :
    copyEach how targets skip (docs ++ docs') t =
      (copyEach how targets skip docs t).andThen (copyEach how targets skip docs') := by
  induction docs generalizing t with
  | nil => exact (Outcome.nothing_andThen _ t).symm
  | cons d docs ih =>
      rw [List.cons_append, copyEach_cons d (docs ++ docs'), copyEach_cons d docs,
        Outcome.andThen_assoc]
      exact congrArg _ (funext fun _ => ih)

theorem copyEach_singleton (hskip : target ∉ skip) :
    copyEach how targets skip [(file, target)] t =
      ⟨(copy how targets file target t).tree, (copy how targets file target t).events,
        (copy how targets file target t).result.map fun _ => [target]⟩ := by
  rw [copyEach, if_neg hskip]
  cases copy how targets file target t with
  | mk u es r => cases r <;> simp [copyEach, Except.map]

theorem copyEach_cons_of_ok {u : FileTree} {docs : List (Path × Path)} {es : List Event}
    (hskip : target ∉ skip) (hcopy : copy how targets file target t = ⟨u, es, .ok ()⟩) :
    copyEach how targets skip ((file, target) :: docs) t =
      ⟨(copyEach how targets skip docs u).tree, es ++ (copyEach how targets skip docs u).events,
        (copyEach how targets skip docs u).result.map (target :: ·)⟩ := by
  rw [copyEach, if_neg hskip, hcopy]

/-- The first copy is made, and then the others. -/
theorem copyEach_cons_of_made {docs : List (Path × Path)} (hskip : target ∉ skip)
    (hcopy : (copy how targets file target t).result = .ok ()) :
    copyEach how targets skip ((file, target) :: docs) t =
      ⟨(copyEach how targets skip docs (copy how targets file target t).tree).tree,
        (copy how targets file target t).events ++
          (copyEach how targets skip docs (copy how targets file target t).tree).events,
        (copyEach how targets skip docs (copy how targets file target t).tree).result.map
          (target :: ·)⟩ :=
  copyEach_cons_of_ok hskip (by rw [← hcopy])

theorem copyEach_cons_eq_ok {docs : List (Path × Path)} {new : List Path} (hskip : target ∉ skip)
    (h : (copyEach how targets skip ((file, target) :: docs) t).result = .ok new) :
    (copy how targets file target t).result = .ok () ∧
    ∃ rest, (copyEach how targets skip docs (copy how targets file target t).tree).result =
        .ok rest ∧ new = target :: rest := by
  rw [copyEach_cons] at h
  obtain ⟨first, rest, hfirst, hrest, rfl, -⟩ := Outcome.andThen_eq_ok _ h
  rw [copyEach_singleton hskip] at hfirst hrest
  cases hcopy : (copy how targets file target t).result with
  | error e =>
      rw [hcopy] at hfirst
      cases hfirst
  | ok x =>
      rw [hcopy] at hfirst
      obtain rfl := Except.ok.inj hfirst
      exact ⟨rfl, rest, hrest, rfl⟩

/-- The making of copies without a failure, cut in two. -/
theorem copyEach_append {docs docs' : List (Path × Path)} {new : List Path}
    (h : (copyEach how targets skip (docs ++ docs') t).result = .ok new) :
    ∃ first rest, (copyEach how targets skip docs t).result = .ok first ∧
      (copyEach how targets skip docs' (copyEach how targets skip docs t).tree).result =
        .ok rest ∧ new = first ++ rest ∧
      (copyEach how targets skip (docs ++ docs') t).tree =
        (copyEach how targets skip docs' (copyEach how targets skip docs t).tree).tree := by
  rw [copyEach_append_eq] at h ⊢
  exact Outcome.andThen_eq_ok _ h

/-- The copies that are made are those at targets that are not to be skipped. -/
theorem copyEach_result {docs : List (Path × Path)} {new : List Path}
    (h : (copyEach how targets skip docs t).result = .ok new) :
    new = (docs.map Prod.snd).filter (· ∉ skip) := by
  induction docs generalizing t new with
  | nil => exact (Except.ok.inj h).symm
  | cons e docs ih =>
      obtain ⟨file, target⟩ := e
      by_cases hskip : target ∈ skip
      · rw [copyEach_cons_of_mem hskip] at h
        simpa [hskip] using ih h
      · obtain ⟨-, rest, hrest, rfl⟩ := copyEach_cons_eq_ok hskip h
        simpa [hskip] using ih hrest

theorem copyEach_changes_new (ht : t.LinkFree) {docs : List (Path × Path)}
    (hnormal : ∀ e ∈ docs, e.2.Normal) {new : List Path}
    (h : (copyEach how targets skip docs t).result = .ok new) :
    Changes (· ∈ new) t (copyEach how targets skip docs t).tree := by
  induction docs generalizing t new with
  | nil => exact .refl _ _
  | cons e docs ih =>
      obtain ⟨file, target⟩ := e
      rw [List.forall_mem_cons] at hnormal
      by_cases hskip : target ∈ skip
      · rw [copyEach_cons_of_mem hskip] at h ⊢
        exact ih ht hnormal.2 h
      · obtain ⟨hcopy, rest, hrest, rfl⟩ := copyEach_cons_eq_ok hskip h
        have hfirst : Changes (· = target) t (copy how targets file target t).tree :=
          copy_changes_target ht hnormal.1
        rw [copyEach_cons_of_made hskip hcopy]
        refine (hfirst.mono fun p hp => ?_).trans
          ((ih (ht.of_changes hfirst) hnormal.2 hrest).mono fun p hp => ?_)
        · exact hp ▸ List.mem_cons_self
        · exact List.mem_cons_of_mem _ hp

theorem location_ne {p q : Path} (hanchor : p.anchor = q.anchor) (hne : p ≠ q) :
    p.location ≠ q.location := by
  intro hloc
  have hnames : p.names = q.names := List.reverse_inj.1 hloc
  exact hne (by cases p; cases q; simp_all)

/-- **A copy holds the lines of its document** as they are changed when it is made, if no other copy
behind it goes to the same place. -/
theorem copyEach_holds (ht : t.LinkFree) {before after : List (Path × Path)} {file target : Path}
    (hnormal : ∀ e ∈ before ++ (file, target) :: after, e.2.Normal ∧ e.2.anchor = target.anchor)
    {new : List Path} (hskip : target ∉ skip) (hlast : target ∉ after.map Prod.snd)
    (h : (copyEach how targets skip (before ++ (file, target) :: after) t).result = .ok new) :
    ∃ out bytes, copyLines? how ⟨(copyEach how targets skip before t).tree, targets, file, target⟩ =
        some out ∧ Document.bytes? how.encoding out = some bytes ∧
      (copyEach how targets skip (before ++ (file, target) :: after) t).tree.entryAt
        target.location = some (.file bytes) := by
  obtain ⟨first, rest, hfirst, hrest, -, htree⟩ := copyEach_append h
  obtain ⟨hcopy, rest', hrest', -⟩ := copyEach_cons_eq_ok hskip hrest
  have hbefore := copyEach_changes_new ht (fun e he => (hnormal e (by simp [he])).1) hfirst
  have ht₁ := ht.of_changes hbefore
  have hp : target.Normal := (hnormal (file, target) (by simp)).1
  obtain ⟨out, bytes, hout, hbytes, hentry⟩ := copy_holds ht₁ hp hcopy
  have hafter := copyEach_changes_new (ht₁.of_changes (copy_changes_target ht₁ hp))
    (fun e he => (hnormal e (by simp [he])).1) hrest'
  refine ⟨out, bytes, hout, hbytes, ?_⟩
  rw [htree, copyEach_cons_of_made hskip hcopy]
  refine hafter.entryAt_eq hentry fun p hmem => ?_
  rw [copyEach_result hrest'] at hmem
  obtain ⟨e, he, rfl⟩ := List.mem_map.1 (List.mem_filter.1 hmem).1
  refine location_ne (hnormal e (by simp [he])).2.symm ?_
  rintro rfl
  exact hlast (List.mem_map_of_mem he)

end Relink

end Folio

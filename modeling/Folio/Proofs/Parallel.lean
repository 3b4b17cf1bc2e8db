import Folio.Proofs.Agreement
import Folio.Proofs.Resemblance

/-!
# Two runs side by side

Two builds that differ in their attributes only are run on two file trees that differ in the bytes
of files only. **They do the same, step by step**, if each document that is read has the same lines
on both sides, once the attributes of its own side are substituted in them (`Document.prepared`).
For nothing else of a document matters: lines are searched and changed after the substitution.

`Build.opens` lists the locations of all files that a run opens for writing, also those in which it
fails. `Build.run_parallel` carries both runs through every step: findings, events, the list of
copies, pages or error are the same, and the file trees resemble each other afterwards, with the
same bytes wherever something has been written.
-/

namespace Folio

open FileTree

/-! ## Lines to work on -/

namespace Document

/-- The lines of a file with these bytes, in the encoding of this name. -/
def lines? (encoding : Text) (content : List UInt8) : Option (List Text) :=
  match Encoding.ofName? encoding with
  | none => none
  | some e => if e.isText then (e.decode content).map Text.lines else none

/-- The lines of a document with the attributes substituted in them. -/
def prepared (t : FileTree) (p : Path) (encoding : Text) (attributes : Attributes) :
    Except BuildError (List Text) :=
  (read t p encoding).map fun ls => ls.map attributes.substitute

variable {rel : Location → List UInt8 → List UInt8 → Prop} {t u : FileTree} {p : Path}
  {encoding : Text} {attributes attributes' : Attributes}

/-- Why such a file is no document in the encoding of this name, if it is none. -/
def lineCause (encoding : Text) : Cause :=
  match Encoding.ofName? encoding with
  | none => .encoding
  | some e => if e.isText then .text else .encoding

theorem read_of_readFile {content : List UInt8} (hnull : '\x00' ∉ encoding)
    (hread : t.readFile p = .ok content) :
    read t p encoding =
      match lines? encoding content with
      | none => .error (.unreadable p (lineCause encoding))
      | some ls => .ok ls := by
  rw [read, if_neg hnull, hread, lines?, lineCause]
  cases Encoding.ofName? encoding with
  | none => rfl
  | some e =>
      simp only
      split
      · cases e.decode content <;> rfl
      · rfl

theorem read_of_error {f : Fault} (ht : t.readFile p = .error f) (hu : u.readFile p = .error f) :
    read u p encoding = read t p encoding := by
  rw [read, read, ht, hu]

theorem read_eq_ok_iff {ls : List Text} :
    read t p encoding = .ok ls ↔ '\x00' ∉ encoding ∧
      ∃ content, t.readFile p = .ok content ∧ lines? encoding content = some ls := by
  by_cases hnull : '\x00' ∈ encoding
  · simp [read, hnull]
  · simp only [hnull, not_false_eq_true, true_and]
    cases hread : t.readFile p with
    | error f =>
        rw [read, if_neg hnull, hread]
        cases f <;> simp
    | ok content =>
        rw [read_of_readFile hnull hread]
        cases hlines : lines? encoding content <;> simp [hlines]

/-- **Documents are prepared alike** if the bytes of their files have such lines. -/
theorem prepared_eq (h : Resembles rel t u)
    (hrel : '\x00' ∉ encoding → ∀ loc content content', t.resolve p = .ok (.entry loc) →
      t.readFile p = .ok content → rel loc content content' →
      (lines? encoding content').map (·.map attributes'.substitute) =
        (lines? encoding content).map (·.map attributes.substitute)) :
    prepared u p encoding attributes' = prepared t p encoding attributes := by
  rw [prepared, prepared]
  by_cases hnull : '\x00' ∈ encoding
  · rw [read, read, if_pos hnull, if_pos hnull]
    rfl
  · rcases h.readFile_cases p with ⟨f, hf, hf'⟩ | ⟨loc, content, content', hres, hcontent, ht, hu⟩
    · rw [read_of_error hf hf', read, if_neg hnull, hf]
      cases f <;> rfl
    · have hlines := hrel hnull loc content content' hres ht hcontent
      rw [read_of_readFile hnull ht, read_of_readFile hnull hu]
      cases hold : lines? encoding content with
      | none =>
          rw [hold, Option.map_none, Option.map_eq_none_iff] at hlines
          rw [hlines]
          rfl
      | some ls =>
          rw [hold, Option.map_some, Option.map_eq_some_iff] at hlines
          obtain ⟨ls', hnew, heq⟩ := hlines
          rw [hnew]
          exact congrArg Except.ok heq

end Document

/-! ## Searches -/

theorem Search.directives_eq (s : Search) (file target : Path) :
    s.directives file target =
      (Document.prepared s.tree file s.encoding s.attributes).map fun ls =>
        ls.filterMap (Directive.ofLine? s.tree.cwdPath file target) := by
  rw [directives, Document.prepared]
  cases Document.read s.tree file s.encoding with
  | error e => rfl
  | ok ls => simp only [Except.map, List.filterMap_map, Function.comp_def]

/-! ## Copies -/

namespace Relink

variable {rel : Location → List UInt8 → List UInt8 → Prop} {t u : FileTree} {how : Copying}
  {attributes : Attributes} {targets : Targets} {skip : List Path} {file target : Path}
  {opened : List Location} {docs : List (Path × Path)}

/-- The attributes are substituted before anything else. -/
theorem lines_prepared (c : Copy) (kinds : List Reference) (attributes : Attributes)
    (ls : List Text) :
    lines c kinds attributes ls = lines c kinds .empty (ls.map attributes.substitute) := by
  induction ls with
  | nil => rfl
  | cons l ls ih =>
      have hempty : ∀ l, Attributes.substitute .empty l = l := fun _ => rfl
      rw [List.map_cons, lines, lines, ih, hempty]

theorem copy_prepared (how : Copying) (targets : Targets) (file target : Path) (t : FileTree) :
    copy how targets file target t =
      match Document.prepared t file how.encoding how.attributes with
      | .error e => ⟨t, [.copied file target], .error e⟩
      | .ok ls =>
          match lines ⟨t, targets, file, target⟩ how.kinds .empty ls with
          | (es, .error f) => ⟨t, .copied file target :: es, .error (.uncertain f)⟩
          | (es, .ok ls) =>
              ⟨(Document.write t target how.encoding ls).1, .copied file target :: es,
                (Document.write t target how.encoding ls).2⟩ := by
  rw [copy, Document.prepared]
  cases Document.read t file how.encoding with
  | error e => rfl
  | ok ls =>
      rcases hlines : lines ⟨t, targets, file, target⟩ how.kinds .empty
        (ls.map how.attributes.substitute) with ⟨es, _ | _⟩ <;>
        simp only [Except.map, lines_prepared _ _ how.attributes, hlines]

/-- **Lines are changed alike**: of the file tree, only what exists counts. -/
theorem lines_resembles (h : Resembles rel t u) (kinds : List Reference) (attributes : Attributes)
    (ls : List Text) :
    lines ⟨u, targets, file, target⟩ kinds attributes ls =
      lines ⟨t, targets, file, target⟩ kinds attributes ls := by
  have hmatch : match? ⟨u, targets, file, target⟩ = match? ⟨t, targets, file, target⟩ := by
    funext kind m
    simp only [match?, h.exists?_eq, h.cwdPath_eq]
  have hpieces : ∀ kind ps, pieces ⟨u, targets, file, target⟩ kind ps =
      pieces ⟨t, targets, file, target⟩ kind ps := by
    intro kind ps
    induction ps with
    | nil => rfl
    | cons p ps ih =>
        cases p with
        | plain a => rw [pieces_cons_plain, pieces_cons_plain, ih]
        | hit m => rw [Copy.pieces_hit, Copy.pieces_hit, hmatch, ih]
  have hline : ∀ kinds s, line ⟨u, targets, file, target⟩ kinds s =
      line ⟨t, targets, file, target⟩ kinds s := by
    intro kinds
    induction kinds with
    | nil => exact fun s => rfl
    | cons kind kinds ih => intro s; simp only [line, hpieces, ih]
  induction ls with
  | nil => rfl
  | cons l ls ih => simp only [lines, hline, ih]

/-- The location of the file that is opened for the copy of a document. -/
def opening (how : Copying) (targets : Targets) (file target : Path) (t : FileTree) :
    List Location :=
  match Document.prepared t file how.encoding how.attributes with
  | .error _ => []
  | .ok ls =>
      match lines ⟨t, targets, file, target⟩ how.kinds .empty ls with
      | (_, .error _) => []
      | (_, .ok _) => Document.opening t target how.encoding

/-- The locations of the files that are opened for the copies of some documents, up to the first one
that fails. -/
def openings (how : Copying) (targets : Targets) (skip : List Path) :
    List (Path × Path) → FileTree → List Location
  | [], _ => []
  | (file, target) :: rest, t =>
      if target ∈ skip then openings how targets skip rest t
      else
        opening how targets file target t ++
          match copy how targets file target t with
          | ⟨_, _, .error _⟩ => []
          | ⟨t', _, .ok ()⟩ => openings how targets skip rest t'

/-- **A copy is made alike.** -/
theorem copy_resembles (h : Resembles (Rewritten opened rel) t u)
    (hread : Document.prepared u file how.encoding attributes =
      Document.prepared t file how.encoding how.attributes)
    (hopens : ∀ loc ∈ opening how targets file target t, ∀ content, rel loc content content) :
    let o := copy how targets file target t
    let o' := copy { how with attributes := attributes } targets file target u
    o'.events = o.events ∧ o'.result = o.result ∧
      Resembles (Rewritten (opening how targets file target t ++ opened) rel) o.tree o'.tree := by
  simp only [copy_prepared, opening, hread, lines_resembles h] at hopens ⊢
  split
  · exact ⟨rfl, rfl, h⟩
  · next ls hls =>
      simp only [hls] at hopens
      split
      · exact ⟨rfl, rfl, h⟩
      · next es out hlines =>
          simp only [hlines] at hopens
          obtain ⟨htree, hresult⟩ := Document.write_resembles h hopens out
          exact ⟨rfl, hresult, htree⟩

/-- **Copies are made alike.** -/
theorem copyEach_resembles (how : Copying) (attributes : Attributes)
    (h : Resembles (Rewritten opened rel) t u)
    (hread : ∀ e ∈ docs, ∀ t' u', Keeps t t' → Resembles rel t' u' →
      Document.prepared u' e.1 how.encoding attributes =
        Document.prepared t' e.1 how.encoding how.attributes)
    (hopens : ∀ loc ∈ openings how targets skip docs t, ∀ content, rel loc content content) :
    let o := copyEach how targets skip docs t
    let o' := copyEach { how with attributes := attributes } targets skip docs u
    o'.events = o.events ∧ o'.result = o.result ∧
      Resembles (Rewritten (openings how targets skip docs t ++ opened) rel) o.tree o'.tree := by
  induction docs generalizing t u opened with
  | nil => exact ⟨rfl, rfl, h⟩
  | cons e docs ih =>
      obtain ⟨file, target⟩ := e
      rw [List.forall_mem_cons] at hread
      by_cases hskip : target ∈ skip
      · simp only [copyEach, openings, hskip, if_true] at hopens ⊢
        exact ih h hread.2 hopens
      · simp only [copyEach, openings, hskip, if_false, List.forall_mem_append] at hopens ⊢
        obtain ⟨hevents, hresult, htree⟩ :=
          copy_resembles h (hread.1 t u (.refl t) h.of_rewritten) hopens.1
        have hkeeps := (copy_retains how targets file target t).toKeeps
        revert hevents hresult htree hkeeps hopens
        generalize copy how targets file target t = o
        generalize copy { how with attributes := attributes } targets file target u = o'
        obtain ⟨t₁, es, x⟩ := o
        obtain ⟨u₁, es', x'⟩ := o'
        rintro hopens rfl rfl htree hkeeps
        cases x' with
        | error e => exact ⟨rfl, rfl, htree.mono (by simp)⟩
        | ok _ =>
            obtain ⟨hevents, hresult, hrest⟩ := ih htree
              (fun e he t' u' hkeeps' => hread.2 e he t' u' (hkeeps.trans hkeeps')) hopens.2
            simp only [hevents, hresult]
            exact ⟨trivial, trivial, hrest.mono (by simp)⟩

end Relink

/-! ## Runs -/

namespace Build

variable {b : Build} {attributes : Attributes} {rel : Location → List UInt8 → List UInt8 → Prop}
  {t u : FileTree} {written : List Path} {docs : List (Path × Path)} {opened : List Location}
  {v : Visit}

def withAttributes (b : Build) (attributes : Attributes) : Build :=
  { b with attributes := attributes }

/-- The documents of a visit are prepared alike in all trees that resemble each other, in the search
and for the copies, where the first tree is that of the visit, or a later one if copies are made. -/
structure PreparesAlike (b : Build) (attributes : Attributes)
    (rel : Location → List UInt8 → List UInt8 → Prop) (v : Visit) : Prop where
  search : ∀ file ∈ (b.found v).targets.keys, ∀ u, Resembles rel v.tree u →
    Document.prepared u file b.encoding attributes =
      Document.prepared v.tree file b.encoding b.attributes
  copy : (b.found v).result.isOk → ∀ file ∈ (b.found v).targets.keys, ∀ t u, Keeps v.tree t →
    Resembles rel t u → Document.prepared u file b.encoding attributes =
      Document.prepared t file b.encoding b.attributes

/-- The locations of the files that a visit opens for writing. -/
def opensAt (b : Build) (v : Visit) : List Location :=
  match (b.found v).result with
  | .error _ => []
  | .ok _ => Relink.openings b.copying (b.found v).targets v.written (b.found v).targets.entries v.tree

/-- **The locations of the files that a run opens** for writing. -/
def opens (b : Build) (t : FileTree) : List Location := (b.visits t).flatMap b.opensAt

/-- **A search finds the same.** -/
theorem found_resembles (h : Resembles rel v.tree u) (hread : b.PreparesAlike attributes rel v) :
    (b.withAttributes attributes).found { v with tree := u } = b.found v := by
  refine Search.collect_congr fun file target hmaps => ⟨?_, fun ds _ d _ => ?_⟩
  · rw [Search.directives_eq, Search.directives_eq]
    show (Document.prepared u file b.encoding attributes).map (fun ls =>
      ls.filterMap (Directive.ofLine? u.cwdPath file target)) = _
    rw [hread.search file (Search.mem_keys_of_get? hmaps) u h, h.cwdPath_eq]
    rfl
  · show d.promotes? u = d.promotes? v.tree
    rw [Directive.promotes?, Directive.promotes?, Document.isPage?, Document.isPage?, h.isFile?_eq]

/-- **A page is made alike.** -/
theorem makePage_resembles (h : Resembles (Rewritten opened rel) v.tree u)
    (hread : b.PreparesAlike attributes rel v)
    (hopens : ∀ loc ∈ b.opensAt v, ∀ content, rel loc content content) :
    let p := b.makePage v.tree v.written v.file v.target
    let p' := (b.withAttributes attributes).makePage u v.written v.file v.target
    p'.events = p.events ∧ p'.written = p.written ∧ p'.result = p.result ∧
      Resembles (Rewritten (b.opensAt v ++ opened) rel) p.tree p'.tree := by
  have hfound := found_resembles h.of_rewritten hread
  have hpage := makePage_eq b v
  have hpage' := makePage_eq (b.withAttributes attributes) { v with tree := u }
  rw [opensAt] at hopens ⊢
  cases hresult : (b.found v).result with
  | error e =>
      simp only [hfound, hresult] at hpage hpage'
      simp only [hpage, hpage']
      exact ⟨trivial, trivial, trivial, h⟩
  | ok page =>
      simp only [hresult] at hopens
      obtain ⟨hevents, hcopied, htree⟩ := Relink.copyEach_resembles b.copying
        attributes h (fun e he t' u' => hread.copy (by rw [hresult]; rfl) e.1
          (List.mem_map_of_mem he) t' u') hopens
      have hcopies : (b.withAttributes attributes).copies { v with tree := u } =
          Relink.copyEach { b.copying with attributes := attributes } (b.found v).targets v.written
            (b.found v).targets.entries u := by
        rw [copies, hfound]
        rfl
      rw [← hcopies] at hevents hcopied htree
      simp only [hfound, hresult] at hpage hpage'
      rw [hpage, hpage']
      revert hevents hcopied htree
      rw [show Relink.copyEach b.copying (b.found v).targets v.written (b.found v).targets.entries
        v.tree = b.copies v from rfl]
      generalize b.copies v = o
      generalize (b.withAttributes attributes).copies { v with tree := u } = o'
      obtain ⟨t₁, es, x⟩ := o
      obtain ⟨u₁, es', x'⟩ := o'
      rintro rfl rfl htree
      cases x' <;> exact ⟨rfl, rfl, rfl, htree⟩

/-- **Pages are made alike**, and the visits find the same. -/
theorem makePages_resembles (h : Resembles (Rewritten opened rel) t u)
    (hread : ∀ v ∈ b.visitAll docs t written, b.PreparesAlike attributes rel v)
    (hopens : ∀ loc ∈ (b.visitAll docs t written).flatMap b.opensAt, ∀ content,
      rel loc content content) :
    let p := b.makePages docs t written
    let b' := b.withAttributes attributes
    let p' := b'.makePages docs u written
    (b'.visitAll docs u written).map b'.found = (b.visitAll docs t written).map b.found ∧
      p'.events = p.events ∧ p'.written = p.written ∧ p'.result = p.result ∧
      Resembles (Rewritten ((b.visitAll docs t written).flatMap b.opensAt ++ opened) rel)
        p.tree p'.tree := by
  induction docs generalizing t u written opened with
  | nil =>
      simp only [visitAll, List.map_nil]
      exact ⟨trivial, rfl, rfl, rfl, h⟩
  | cons e docs ih =>
      obtain ⟨file, target⟩ := e
      rw [visitAll, List.forall_mem_cons] at hread
      rw [visitAll, List.flatMap_cons, List.forall_mem_append] at hopens
      have hfound := found_resembles (v := ⟨t, written, file, target⟩) h.of_rewritten hread.1
      obtain ⟨hevents, hwritten, hresult, htree⟩ :=
        makePage_resembles (v := ⟨t, written, file, target⟩) h hread.1 hopens.1
      simp only [makePages, visitAll, List.map_cons, hfound, List.flatMap_cons]
      revert hevents hwritten hresult htree hread hopens
      simp only
      generalize b.makePage t written file target = p
      generalize (b.withAttributes attributes).makePage u written file target = p'
      obtain ⟨t₁, es, written₁, x⟩ := p
      obtain ⟨u₁, es', written₁', x'⟩ := p'
      rintro hread hopens rfl rfl rfl htree
      cases x' with
      | error e =>
          simp only [List.map_nil]
          exact ⟨trivial, trivial, trivial, trivial, htree.mono (by simp)⟩
      | ok first =>
          obtain ⟨hfounds, hevents, hwritten, hresult, hrest⟩ := ih htree hread.2 hopens.2
          simp only [hfounds, hevents, hwritten, hresult]
          exact ⟨trivial, trivial, trivial, trivial, hrest.mono (by simp)⟩

theorem topLevel_resembles (h : Resembles rel t u) :
    (b.withAttributes attributes).topLevel u = b.topLevel t := by
  have hpages : ∀ names, pagesAmong u b.source b.workingDir names =
      pagesAmong t b.source b.workingDir names := fun names =>
    pagesAmong_congr fun n _ => by rw [Document.isPage?, Document.isPage?, h.isFile?_eq]
  simp only [topLevel, withAttributes, h.isDirectory?_eq, h.list_eq, hpages]

/-- **Two runs side by side.** Builds that differ in their attributes only do the same on file trees
that resemble each other, if every visit prepares its documents alike, and files with the same bytes
are allowed wherever one of the runs opens a file. What has been written is the same on both sides.
-/
theorem run_parallel (attributes : Attributes) (h : Resembles rel t u)
    (hread : ∀ v ∈ b.visits t, b.PreparesAlike attributes rel v)
    (hopens : ∀ loc ∈ b.opens t, ∀ content, rel loc content content) :
    let p := b.run t
    let b' := b.withAttributes attributes
    let p' := b'.run u
    (b'.visits u).map b'.found = (b.visits t).map b.found ∧
      p'.events = p.events ∧ p'.written = p.written ∧ p'.result = p.result ∧
      Resembles (Rewritten (b.opens t) rel) p.tree p'.tree := by
  have h₀ : Resembles (Rewritten [] rel) t u :=
    ⟨h.cwd, fun loc => (h.entry loc).imp_right fun ⟨content, content', hfile, hfile', hrel⟩ =>
      ⟨content, content', hfile, hfile', hrel, fun hmem => absurd hmem List.not_mem_nil⟩⟩
  have htop : (b.withAttributes attributes).topLevel u = b.topLevel t := topLevel_resembles h
  cases hpages : b.pages with
  | some pages =>
      have hpages' : (b.withAttributes attributes).pages = some pages := hpages
      simp only [run_of_pages hpages, run_of_pages hpages', opens, visits, hpages, hpages',
        List.map_nil]
      exact ⟨trivial, trivial, rfl, trivial, h₀⟩
  | none =>
      have hpages' : (b.withAttributes attributes).pages = none := hpages
      rw [opens] at hopens
      simp only [run, make, opens, visits, hpages, hpages', htop] at hread hopens ⊢
      cases htop : b.topLevel t with
      | mk es r =>
          cases r with
          | error e =>
              simp only [List.map_nil]
              exact ⟨trivial, trivial, rfl, trivial, h₀⟩
          | ok docs =>
              simp only [htop] at hread hopens ⊢
              obtain ⟨hfounds, hevents, hwritten, hresult, htree⟩ :=
                makePages_resembles h₀ hread hopens
              exact ⟨hfounds, congrArg (es ++ ·) hevents, hwritten, hresult, htree.mono (by simp)⟩

/-- A build can be opened on both trees, or on none. -/
theorem open?_resembles (h : Resembles rel t u) (source workingDir : Path)
    (attributes attributes' : Attributes) (encoding : Text) :
    open? u source workingDir attributes' encoding =
      (open? t source workingDir attributes encoding).map (·.withAttributes attributes') := by
  have hsource : checkSource u source = checkSource t source := by
    rw [checkSource, checkSource, h.exists?_eq, h.isDirectory?_eq]
  have hworking : checkWorkingDir u workingDir = checkWorkingDir t workingDir := by
    rw [checkWorkingDir, checkWorkingDir, h.exists?_eq, h.isDirectory?_eq]
  rw [open?, open?, hsource, hworking, h.cwdPath_eq]
  cases checkSource t source with
  | error e => rfl
  | ok _ =>
      cases checkWorkingDir t workingDir with
      | error e => rfl
      | ok _ => cases checkEncoding encoding <;> rfl

end Build

end Folio

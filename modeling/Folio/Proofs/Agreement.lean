import Folio.Proofs.Growth
import Folio.Proofs.Lookup
import Folio.Proofs.Readback

/-!
# What searches and copies depend on

A search asks the file tree for the lines of the documents that it goes into, and whether there are
files at the paths that these lines name. Two trees that give the same answers there lead to the
same finding (`Search.collect_congr`), whatever else they hold.

The lines of a copy depend on still less. For each reference it is asked whether the file exists
and, if so, whether it has a target. The event of a reference tells its path (`Event.looked?`). So
**two copies of a document hold the same lines if they agree on the references of which their events
tell** (`Relink.lines_congr`), and the targets need not even be the same.
-/

namespace Folio

open FileTree

/-! ## Searches -/

namespace Search

variable {s s' : Search}

/-- Both searches read the documents with these targets in the same way. -/
def Agrees (s s' : Search) (m : Targets) : Prop :=
  ∀ file target, m.get? file = some target →
    s'.directives file target = s.directives file target ∧
    ∀ ds, s.directives file target = .ok ds → ∀ d ∈ ds,
      d.promotes? s'.tree = d.promotes? s.tree

theorem Agrees.promotes? {m M : Targets} (h : s.Agrees s' M) (hgrows : s.Grows m M) {d : Directive}
    (hd : s.Pending m d) : d.promotes? s'.tree = d.promotes? s.tree := by
  obtain ⟨file, target, ds, hm, hds, hmem⟩ := hd
  exact (h file target (hgrows.get?_mono hm)).2 ds hds d hmem

/-- The agendas agree if going into a document does. -/
theorem run_congr {enter enter' : Directive → List Task → List OpenPage → Targets → Finding}
    (hgrows : ∀ d tasks outer m, (∀ d', Task.follow d' ∈ tasks → s.Pending m d') →
      s.Pending m d → d.promotes? s.tree = .ok true → m.get? d.actual = none →
      s.Grows m (enter d tasks outer m).targets)
    (henter : ∀ d tasks outer m, (∀ d', Task.follow d' ∈ tasks → s.Pending m d') →
      m.get? d.actual = none → s.Agrees s' (enter d tasks outer m).targets →
      enter' d tasks outer m = enter d tasks outer m)
    {tasks : List Task} {draft : OpenPage} {outer : List OpenPage} {m : Targets}
    (htasks : ∀ d, Task.follow d ∈ tasks → s.Pending m d)
    (h : s.Agrees s' (s.run enter tasks draft outer m).targets) :
    s'.run enter' tasks draft outer m = s.run enter tasks draft outer m := by
  have hall : ∀ tasks draft outer, (∀ d, Task.follow d ∈ tasks → s.Pending m d) →
      s.Grows m (s.run enter tasks draft outer m).targets := fun tasks draft outer htasks =>
    run_grows (fun d tasks outer m hm htasks hd hp hnone =>
      hm.trans (hgrows d tasks outer m htasks hd hp hnone)) .refl htasks
  induction tasks generalizing draft outer with
  | nil => rfl
  | cons task tasks ih =>
      have hrest : ∀ d, Task.follow d ∈ tasks → s.Pending m d := fun d hd =>
        htasks d (List.mem_cons_of_mem _ hd)
      cases task with
      | close =>
          cases outer with
          | nil => exact ih hrest h
          | cons o outer => exact ih hrest h
      | follow d =>
          have hd : s.Pending m d := htasks d List.mem_cons_self
          have hsame := h.promotes? (hall _ draft outer htasks) hd
          rw [run] at h ⊢
          rw [run, hsame]
          cases hp : d.promotes? s.tree with
          | error f => rfl
          | ok promotes =>
              rw [hp] at h
              cases promotes with
              | false => exact congrArg (Finding.after _) (ih hrest h)
              | true =>
                  cases hm : m.get? d.actual with
                  | some there =>
                      simp only [hm] at h ⊢
                      exact congrArg (Finding.after _) (ih hrest h)
                  | none =>
                      simp only [hm] at h ⊢
                      have htasks' : ∀ d', Task.follow d' ∈ Task.close :: tasks → s.Pending m d' :=
                        fun d' hd' => hrest d' (List.mem_of_ne_of_mem (by simp) hd')
                      exact congrArg (Finding.after _)
                        (henter d (.close :: tasks) (draft :: outer) m htasks' hm h)

theorem enter_grows {n : Nat} {file target : Path} {tasks : List Task} {outer : List OpenPage}
    {m : Targets} (htasks : ∀ d, Task.follow d ∈ tasks → s.Pending m d)
    (hnone : m.get? file = none) :
    s.Grows (m.insert file target) (s.enter (s.runWithin n) file target tasks outer m).targets := by
  rw [enter]
  split
  · exact .refl
  · next ds hds =>
      refine runWithin_grows .refl fun d hd => ?_
      rcases List.mem_append.1 hd with hin | hin
      · exact ⟨file, target, ds, by simp [OrderedMap.get?_insert], hds, by simpa using hin⟩
      · exact (htasks d hin).insert hnone

/-- Going into a document agrees if what follows does. -/
theorem enter_congr {n : Nat} {file target : Path} {tasks : List Task} {outer : List OpenPage}
    {m : Targets} (htasks : ∀ d, Task.follow d ∈ tasks → s.Pending m d)
    (hnone : m.get? file = none)
    (hnext : ∀ tasks draft outer m, (∀ d, Task.follow d ∈ tasks → s.Pending m d) →
      s.Agrees s' (s.runWithin n tasks draft outer m).targets →
      s'.runWithin n tasks draft outer m = s.runWithin n tasks draft outer m)
    (h : s.Agrees s' (s.enter (s.runWithin n) file target tasks outer m).targets) :
    s'.enter (s'.runWithin n) file target tasks outer m =
      s.enter (s.runWithin n) file target tasks outer m := by
  have hin : (m.insert file target).get? file = some target := by simp [OrderedMap.get?_insert]
  have hsame := (h file target ((enter_grows htasks hnone).get?_mono hin)).1
  rw [enter] at h ⊢
  rw [enter, hsame]
  cases hds : s.directives file target with
  | error e => rfl
  | ok ds =>
      simp only [hds] at h ⊢
      refine congrArg (Finding.after _) (hnext _ _ _ _ (fun d hd => ?_) h)
      rcases List.mem_append.1 hd with hin | hin
      · exact ⟨file, target, ds, by simp [OrderedMap.get?_insert], hds, by simpa using hin⟩
      · exact (htasks d hin).insert hnone

theorem runWithin_congr {n : Nat} {tasks : List Task} {draft : OpenPage} {outer : List OpenPage}
    {m : Targets} (htasks : ∀ d, Task.follow d ∈ tasks → s.Pending m d)
    (h : s.Agrees s' (s.runWithin n tasks draft outer m).targets) :
    s'.runWithin n tasks draft outer m = s.runWithin n tasks draft outer m := by
  induction n generalizing tasks draft outer m with
  | zero =>
      rw [runWithin] at h ⊢
      exact run_congr (fun _ _ _ _ _ _ _ _ => .refl) (fun _ _ _ _ _ _ _ => rfl) htasks h
  | succ n ih =>
      rw [runWithin] at h ⊢
      refine run_congr ?_ ?_ htasks h
      · intro d tasks outer m htasks hd hp hnone
        exact (Grows.step .refl hd hp hnone).trans (enter_grows htasks hnone)
      · intro d tasks outer m htasks hnone hagrees
        exact enter_congr htasks hnone (fun _ _ _ _ => ih) hagrees

/-- **Two searches find the same** if they read the documents that one of them finds in the same
way, and however they end. -/
theorem collect_congr {file target : Path} {m : Targets}
    (h : s.Agrees s' (s.collect file target m).targets) :
    s'.collect file target m = s.collect file target m := by
  rw [collect_eq_nested, collectNested] at h ⊢
  rw [collect_eq_nested, collectNested]
  cases hm : m.get? file with
  | some there => rfl
  | none =>
      simp only [hm] at h ⊢
      exact enter_congr (by simp) hm (fun _ _ _ _ => runWithin_congr) h

end Search

/-! ## Lines of copies -/

/-- The path of which it has been asked whether it exists, if the event tells of a reference. -/
def Event.looked? : Event → Option Path
  | .repointed _ actual .. => some actual
  | .missing _ actual .. => some actual
  | _ => none

namespace Copy

/-- Two copies of a document at the same place, which agree on the references of which these events
tell: the same files exist, and the same ones among them have targets. -/
structure Agrees (c c' : Copy) (es : List Event) : Prop where
  file : c'.file = c.file
  target : c'.target = c.target
  cwd : c'.tree.cwdPath = c.tree.cwdPath
  found : ∀ e ∈ es, ∀ p, e.looked? = some p → c'.tree.exists? p = c.tree.exists? p
  mapped : ∀ e ∈ es, ∀ p, e.looked? = some p → c.tree.exists? p = .ok true →
    (c'.targets.get? p).isSome = (c.targets.get? p).isSome

theorem Agrees.mono {c c' : Copy} {es es' : List Event} (h : c.Agrees c' es) (hsub : es' ⊆ es) :
    c.Agrees c' es' :=
  ⟨h.file, h.target, h.cwd, fun e he => h.found e (hsub he), fun e he => h.mapped e (hsub he)⟩

end Copy

namespace Relink

variable {c c' : Copy} {kind : Reference} {es : List Event}

-- Nothing here depends on how a path is looked up.
attribute [local irreducible] FileTree.exists?

theorem match?_congr {m : Match} {e : Event} {x : Text} (h : match? c kind m = .ok (e, x))
    (hagrees : c.Agrees c' [e]) :
    ∃ e', match? c' kind m = .ok (e', x) ∧ (c'.targets = c.targets → e' = e) := by
  have hdenotes : c'.denotes m = c.denotes m := by rw [Copy.denotes, Copy.denotes, hagrees.file]
  have hlook : e.looked? = some (c.denotes m) → c'.tree.exists? (c.denotes m) =
      c.tree.exists? (c.denotes m) := hagrees.found e List.mem_cons_self _
  have hmap : e.looked? = some (c.denotes m) → c.tree.exists? (c.denotes m) = .ok true →
      (c'.targets.get? (c.denotes m)).isSome = (c.targets.get? (c.denotes m)).isSome :=
    hagrees.mapped e List.mem_cons_self _
  rw [Copy.match?_eq] at h
  rw [Copy.match?_eq, hdenotes, hagrees.file, hagrees.target, hagrees.cwd]
  cases hex : c.tree.exists? (c.denotes m) with
  | error f =>
      rw [hex] at h
      exact absurd h (by simp)
  | ok found =>
      rw [hex] at h
      cases found with
      | false =>
          obtain ⟨rfl, rfl⟩ := Prod.mk.inj (Except.ok.inj h)
          rw [hlook rfl, hex]
          exact ⟨_, rfl, fun _ => rfl⟩
      | true =>
          obtain ⟨rfl, rfl⟩ := Prod.mk.inj (Except.ok.inj h)
          rw [hlook rfl, hex]
          refine ⟨_, congrArg Except.ok (congrArg (Prod.mk _) ?_), fun hsame => by rw [hsame]⟩
          have hsome := hmap rfl hex
          cases hthere : c.targets.get? (c.denotes m) with
          | none =>
              rw [hthere, Option.isSome_none, Option.isSome_eq_false_iff, Option.isNone_iff_eq_none]
                at hsome
              simp [hsome]
          | some there =>
              rw [hthere, Option.isSome_some] at hsome
              simp [hsome]

attribute [local irreducible] Relink.match?

theorem pieces_cons_plain (a : Char) (ps : List Grammar.Piece) :
    pieces c kind (.plain a :: ps) =
      ((pieces c kind ps).1, (pieces c kind ps).2.map (a :: ·)) := rfl

/-- As far as these events tell of matches, each match gets the same text in both copies, and events
that are related. -/
def Corresponds (Rel : Event → Event → Prop) (c c' : Copy) (es : List Event) : Prop :=
  ∀ kind m e x, match? c kind m = .ok (e, x) → e ∈ es → ∃ e', match? c' kind m = .ok (e', x) ∧ Rel e e'

section Corresponds

variable {Rel : Event → Event → Prop}

theorem Corresponds.mono {es es' : List Event} (h : Corresponds Rel c c' es) (hsub : es' ⊆ es) :
    Corresponds Rel c c' es' :=
  fun kind m e x hm he => h kind m e x hm (hsub he)

theorem pieces_corresponds {ps : List Grammar.Piece} {x : Text}
    (h : pieces c kind ps = (es, .ok x)) (hmatch : Corresponds Rel c c' es) :
    ∃ es', pieces c' kind ps = (es', .ok x) ∧ List.Forall₂ Rel es es' := by
  induction ps generalizing es x with
  | nil =>
      obtain ⟨rfl, hx⟩ := Prod.mk.inj h
      exact ⟨[], Prod.ext rfl hx, .nil⟩
  | cons p ps ih =>
      cases p with
      | plain a =>
          obtain ⟨rfl, hx⟩ := Prod.mk.inj h
          obtain ⟨s, hs, rfl⟩ := exists_of_map_eq_ok hx
          obtain ⟨es', hps, hrel⟩ := ih (Prod.ext rfl hs) hmatch
          exact ⟨es', by rw [pieces_cons_plain, hps]; rfl, hrel⟩
      | hit m =>
          rw [Copy.pieces_hit] at h
          split at h
          · exact absurd h (by simp)
          · next e text hm =>
              obtain ⟨rfl, hx⟩ := Prod.mk.inj h
              obtain ⟨s, hs, rfl⟩ := exists_of_map_eq_ok hx
              obtain ⟨e', hm', hrel⟩ := hmatch kind m e text hm List.mem_cons_self
              obtain ⟨es', hps, hrels⟩ := ih (Prod.ext rfl hs)
                (hmatch.mono (List.subset_cons_self _ _))
              exact ⟨e' :: es', by rw [Copy.pieces_hit, hm', hps]; rfl, .cons hrel hrels⟩

theorem line_corresponds {kinds : List Reference} {s x : Text}
    (h : line c kinds s = (es, .ok x)) (hmatch : Corresponds Rel c c' es) :
    ∃ es', line c' kinds s = (es', .ok x) ∧ List.Forall₂ Rel es es' := by
  induction kinds generalizing es s with
  | nil =>
      obtain ⟨rfl, hx⟩ := Prod.mk.inj h
      exact ⟨[], Prod.ext rfl hx, .nil⟩
  | cons kind kinds ih =>
      rw [line] at h
      split at h
      · exact absurd h (by simp)
      · next es₁ s₁ hpieces =>
          obtain ⟨rfl, hx⟩ := Prod.mk.inj h
          obtain ⟨es₁', hpieces', hrel⟩ := pieces_corresponds hpieces
            (hmatch.mono (List.subset_append_left _ _))
          obtain ⟨es₂', hline, hrel'⟩ := ih (Prod.ext rfl hx)
            (hmatch.mono (List.subset_append_right _ _))
          exact ⟨es₁' ++ es₂', by rw [line, hpieces']; simp only [hline], List.rel_append hrel hrel'⟩

/-- **Copies whose matches correspond** hold the same lines. -/
theorem lines_corresponds {kinds : List Reference} {attributes : Attributes} {ls out : List Text}
    (h : lines c kinds attributes ls = (es, .ok out)) (hmatch : Corresponds Rel c c' es) :
    ∃ es', lines c' kinds attributes ls = (es', .ok out) ∧ List.Forall₂ Rel es es' := by
  induction ls generalizing es out with
  | nil =>
      obtain ⟨rfl, hout⟩ := Prod.mk.inj h
      exact ⟨[], Prod.ext rfl hout, .nil⟩
  | cons l ls ih =>
      rw [lines] at h
      split at h
      · exact absurd h (by simp)
      · next es₁ l₁ hline =>
          obtain ⟨rfl, hx⟩ := Prod.mk.inj h
          obtain ⟨out', hout, rfl⟩ := exists_of_map_eq_ok hx
          obtain ⟨es₁', hline', hrel⟩ := line_corresponds hline
            (hmatch.mono (List.subset_append_left _ _))
          obtain ⟨es₂', hlines, hrel'⟩ := ih (Prod.ext rfl hout)
            (hmatch.mono (List.subset_append_right _ _))
          refine ⟨es₁' ++ es₂', ?_, List.rel_append hrel hrel'⟩
          rw [lines, hline']
          simp only [hlines]
          rfl

end Corresponds

/-- **Two copies hold the same lines** if they agree on the references in them. -/
theorem lines_congr {kinds : List Reference} {attributes : Attributes} {ls out : List Text}
    (h : lines c kinds attributes ls = (es, .ok out)) (hagrees : c.Agrees c' es) :
    ∃ es', lines c' kinds attributes ls = (es', .ok out) ∧ (c'.targets = c.targets → es' = es) := by
  obtain ⟨es', hlines, hrel⟩ := lines_corresponds h fun kind m e x hm he =>
    match?_congr hm (hagrees.mono (by simpa using he))
  refine ⟨es', hlines, fun hsame => ?_⟩
  have heq : List.Forall₂ (· = ·) es es' := hrel.imp fun e e' hrel => (hrel hsame).symm
  rw [List.forall₂_eq_eq_eq] at heq
  exact heq.symm

/-! ## What the events of a copy tell -/

/-- The events tell of references in the document only. -/
def Refers (file : Path) (es : List Event) : Prop :=
  ∀ e ∈ es, ∀ p, e.looked? = some p → ∃ path, p = Document.refer file path

theorem refers_append {file : Path} {es es' : List Event} (h : Refers file es)
    (h' : Refers file es') : Refers file (es ++ es') := fun e he =>
  (List.mem_append.1 he).elim (h e) (h' e)

theorem pieces_refers (c : Copy) (kind : Reference) (ps : List Grammar.Piece) :
    Refers c.file (pieces c kind ps).1 := by
  induction ps with
  | nil => exact fun e he => absurd he List.not_mem_nil
  | cons p ps ih =>
      cases p with
      | plain a => exact ih
      | hit m =>
          rw [Copy.pieces_hit]
          split
          · simp [Refers]
          · next e text hm =>
              have hfirst : ∀ p, e.looked? = some p → ∃ path, p = Document.refer c.file path := by
                intro p hp
                rw [Copy.match?_eq] at hm
                split at hm
                · exact absurd hm (by simp)
                · obtain ⟨rfl, -⟩ := Prod.mk.inj (Except.ok.inj hm)
                  exact ⟨_, (Option.some.inj hp).symm⟩
                · obtain ⟨rfl, -⟩ := Prod.mk.inj (Except.ok.inj hm)
                  exact ⟨_, (Option.some.inj hp).symm⟩
              intro e' he'
              rcases List.mem_cons.1 he' with rfl | hrest
              · exact hfirst
              · exact ih e' hrest

theorem line_refers (c : Copy) (kinds : List Reference) (s : Text) :
    Refers c.file (line c kinds s).1 := by
  induction kinds generalizing s with
  | nil => simp [Refers, line]
  | cons kind kinds ih =>
      have hpieces := pieces_refers c kind (kind.grammar.pieces s)
      rw [line]
      split
      · next hp =>
          rw [hp] at hpieces
          exact hpieces
      · next hp =>
          rw [hp] at hpieces
          exact refers_append hpieces (ih _)

theorem lines_refers (c : Copy) (kinds : List Reference) (attributes : Attributes)
    (ls : List Text) : Refers c.file (lines c kinds attributes ls).1 := by
  induction ls with
  | nil => simp [Refers, lines]
  | cons l ls ih =>
      have hline := line_refers c kinds (attributes.substitute l)
      rw [lines]
      split
      · next hl =>
          rw [hl] at hline
          exact hline
      · next hl =>
          rw [hl] at hline
          exact refers_append hline ih

theorem copy_refers (how : Copying) (targets : Targets) (file target : Path) (t : FileTree) :
    Refers file (copy how targets file target t).events := by
  have hcopied : Refers file [.copied file target] := by simp [Refers, Event.looked?]
  rw [copy]
  split
  · exact hcopied
  · next ls _ =>
      have hlines := lines_refers ⟨t, targets, file, target⟩ how.kinds how.attributes ls
      split
      · next hl =>
          rw [hl] at hlines
          exact refers_append hcopied hlines
      · next hl =>
          rw [hl] at hlines
          exact refers_append hcopied hlines

/-- **Every path of which copies tell** is that of a reference in one of the documents. -/
theorem copyEach_refers {how : Copying} {targets : Targets} {skip : List Path}
    {docs : List (Path × Path)} {t : FileTree} {e : Event}
    (he : e ∈ (copyEach how targets skip docs t).events) {p : Path} (hp : e.looked? = some p) :
    ∃ d ∈ docs, ∃ path, p = Document.refer d.1 path := by
  induction docs generalizing t with
  | nil => exact absurd he (by simp [copyEach])
  | cons d docs ih =>
      obtain ⟨file, target⟩ := d
      rw [copyEach] at he
      rw [List.exists_mem_cons_iff]
      split at he
      · exact .inr (ih he)
      · have hcopy := copy_refers how targets file target t
        split at he
        · next hc =>
            rw [hc] at hcopy
            exact .inl (hcopy e he p hp)
        · next hc =>
            rw [hc] at hcopy
            rcases List.mem_append.1 he with hfirst | hrest
            · exact .inl (hcopy e hfirst p hp)
            · exact .inr (ih hrest)

end Relink

end Folio

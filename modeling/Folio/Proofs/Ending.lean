import Folio.Proofs.Answers
import Folio.Proofs.Growth
import Mathlib.Data.List.Nodup

/-!
# Searches come to an end

A search may go into at most `documentBound` documents. **It never comes so far**: whatever it goes
into, but for its first document, is a file at a path of fewer than `pathLimit` bytes, and there are
fewer such paths. This is an injection of texts into numbers (`Text.code`), by the bytes of a text.

So a search that fails does so at a document that cannot be read, or at a line whose path cannot be
looked up (`Search.collect_error`). And a search that goes as the recursion says comes to its end
(`Search.collect_of_follows`).
-/

namespace Folio

open FileTree

/-! ## Numbers of texts -/

namespace Text

/-- The number that has these bytes, each one more, for its digits; the first one counts least. -/
def numeral : List UInt8 → Nat
  | [] => 0
  | b :: bs => 256 * numeral bs + b.toNat + 1

theorem numeral_inj {bs bs' : List UInt8} (h : numeral bs = numeral bs') : bs = bs' := by
  induction bs generalizing bs' with
  | nil =>
      cases bs' with
      | nil => rfl
      | cons b' bs' => simp [numeral] at h
  | cons b bs ih =>
      cases bs' with
      | nil => simp [numeral] at h
      | cons b' bs' =>
          have hb : b.toNat < 256 := b.toNat_lt
          have hb' : b'.toNat < 256 := b'.toNat_lt
          simp only [numeral] at h
          have hfirst : b.toNat = b'.toNat := by omega
          have hrest : numeral bs = numeral bs' := by omega
          rw [UInt8.toNat_inj.1 hfirst, ih hrest]

theorem numeral_le (bs : List UInt8) : numeral bs + 2 ≤ 2 * Nat.pow 256 bs.length := by
  induction bs with
  | nil => simp [numeral]
  | cons b bs ih =>
      have hb : b.toNat < 256 := b.toNat_lt
      have hpow : Nat.pow 256 (bs.length + 1) = Nat.pow 256 bs.length * 256 := rfl
      rw [numeral, List.length_cons, hpow]
      omega

/-- A number of the text, by its bytes. -/
def code (s : Text) : Nat := numeral (String.ofList s).toByteArray.data.toList

theorem code_inj {s s' : Text} (h : s.code = s'.code) : s = s' := by
  have hbytes : (String.ofList s).toByteArray = (String.ofList s').toByteArray :=
    ByteArray.ext (Array.toList_inj.1 (numeral_inj h))
  exact String.ofList_inj.1 (String.toByteArray_inj.1 hbytes)

theorem size_toByteArray (s : Text) : (String.ofList s).toByteArray.size = s.byteLength := by
  rw [String.toByteArray_ofList]
  induction s with
  | nil => rfl
  | cons c s ih =>
      have hcons : Text.byteLength (c :: s) = c.utf8Size + Text.byteLength s := by
        rw [← List.singleton_append, byteLength_append]
        simp [byteLength]
      rw [List.utf8Encode_cons, ByteArray.size_append, ih, hcons, List.utf8Encode_singleton,
        List.size_toByteArray, String.length_utf8EncodeChar]

theorem code_lt {s : Text} {limit : Nat} (h : s.byteLength < limit) :
    s.code < Nat.pow 256 limit - 1 := by
  have hle := numeral_le (String.ofList s).toByteArray.data.toList
  rw [Array.length_toList, ByteArray.size_data, size_toByteArray] at hle
  have hpow : Nat.pow 256 s.byteLength * 256 ≤ Nat.pow 256 limit :=
    Nat.pow_le_pow_right (n := 256) (by decide) h
  rw [code]
  omega

end Text

/-- **There are fewer short paths** than texts of so many bytes. -/
theorem length_lt_of_short {ps : List Path} (hnodup : ps.Nodup) {limit : Nat}
    (hshort : ∀ p ∈ ps, p.toText.byteLength < limit) : ps.length < Nat.pow 256 limit := by
  have hcodes : (ps.map fun p => p.toText.code).Nodup := by
    refine hnodup.map_on fun p _ q _ h => ?_
    rw [← Path.ofText_toText p, ← Path.ofText_toText q, Text.code_inj h]
  have hsub : (ps.map fun p => p.toText.code) ⊆ List.range (Nat.pow 256 limit - 1) := by
    intro k hk
    obtain ⟨p, hp, rfl⟩ := List.mem_map.1 hk
    exact List.mem_range.2 (Text.code_lt (hshort p hp))
  have hlength := hcodes.length_le_of_subset hsub
  rw [List.length_map, List.length_range] at hlength
  have hpos : 0 < Nat.pow 256 limit := Nat.pow_pos (by omega)
  omega

/-! ## Paths of files -/

theorem refusal?_eq_none {p : Path} (h : refusal? p = none) :
    '\x00' ∉ p.toText ∧ p.toText.byteLength < pathLimit := by
  rw [refusal?] at h
  split at h
  · exact absurd h (by simp)
  · split at h
    · exact absurd h (by simp)
    · next hnull =>
        split at h
        · exact absurd h (by simp)
        · next hshort => exact ⟨hnull, by omega⟩

/-- What is found is found by a path that is accepted. -/
theorem refusal?_of_status? {t : FileTree} {p : Path} {e : Entry}
    (h : t.status? p = .ok (some e)) : refusal? p = none := by
  obtain ⟨loc, hres, -⟩ := status?_eq_some_iff.1 h
  exact (resolve_eq_ok_iff.1 hres).1

theorem refusal?_of_isPage? {t : FileTree} {p : Path} (h : Document.isPage? t p = .ok true) :
    refusal? p = none := by
  obtain ⟨-, content, hfile⟩ := Document.isPage?_eq_true_iff.1 h
  exact refusal?_of_status? hfile

namespace Search

variable {s : Search} {m : Targets} {e : BuildError}

theorem isPage?_of_promotes? {d : Directive} {t : FileTree} (h : d.promotes? t = .ok true) :
    Document.isPage? t d.actual = .ok true := by
  rw [Directive.promotes?] at h
  split at h
  · exact absurd h (by simp)
  · exact h

/-- **Whatever a search adds is a page.** -/
theorem Grows.isPage? {m' : Targets} (h : s.Grows m m') {p : Path} (hp : p ∈ m'.keys)
    (hnew : p ∉ m.keys) : Document.isPage? s.tree p = .ok true := by
  induction h with
  | refl => exact absurd hp hnew
  | @step m' d _ _ hpage hnone ih =>
      rw [keys_insert_of_get?_eq_none hnone] at hp
      rcases List.mem_append.1 hp with hold | hadded
      · exact ih hold
      · obtain rfl := List.mem_singleton.1 hadded
        exact isPage?_of_promotes? hpage

/-! ## Where a search fails -/

/-- A document with a target cannot be read, or the path of a directive in one cannot be looked up.
-/
def Fails (s : Search) (m : Targets) (e : BuildError) : Prop :=
  (∃ file target, m.get? file = some target ∧ s.directives file target = .error e) ∨
    ∃ d f, s.Pending m d ∧ d.promotes? s.tree = .error f ∧ e = .uncertain f

/-- The search fails at some document, or it has gone into `n` more. -/
def Stuck (s : Search) (n : Nat) (m m' : Targets) (e : BuildError) : Prop :=
  s.Fails m' e ∨ e = .endless ∧ m.keys.length + n ≤ m'.keys.length

theorem run_stuck {n : Nat} {enter : Directive → List Task → List OpenPage → Targets → Finding}
    (henter : ∀ d tasks outer, (∀ d', Task.follow d' ∈ tasks → s.Pending m d') →
      s.Pending m d → d.promotes? s.tree = .ok true → m.get? d.actual = none →
      (enter d tasks outer m).result = .error e → s.Stuck n m (enter d tasks outer m).targets e)
    {tasks : List Task} {draft : OpenPage} {outer : List OpenPage}
    (htasks : ∀ d, Task.follow d ∈ tasks → s.Pending m d)
    (h : (s.run enter tasks draft outer m).result = .error e) :
    s.Stuck n m (s.run enter tasks draft outer m).targets e := by
  induction tasks generalizing draft outer with
  | nil => exact absurd h (by simp [run])
  | cons task tasks ih =>
      have hrest : ∀ d, Task.follow d ∈ tasks → s.Pending m d := fun d hd =>
        htasks d (List.mem_cons_of_mem _ hd)
      cases task with
      | close =>
          cases outer with
          | nil => exact ih hrest h
          | cons o outer => exact ih hrest h
      | follow d =>
          have hd : s.Pending m d := htasks d List.mem_cons_self
          rw [run] at h ⊢
          split at h
          · next f hp =>
              obtain rfl := Except.error.inj h
              exact .inl (.inr ⟨d, f, hd, hp, rfl⟩)
          · exact ih hrest h
          · next hp =>
              split at h
              · exact ih hrest h
              · next hnone =>
                  refine henter d (.close :: tasks) (draft :: outer) (fun d' hd' => ?_) hd hp hnone h
                  exact hrest d' (List.mem_of_ne_of_mem (by simp) hd')

theorem runWithin_stuck {n : Nat} {tasks : List Task} {draft : OpenPage} {outer : List OpenPage}
    (htasks : ∀ d, Task.follow d ∈ tasks → s.Pending m d)
    (h : (s.runWithin n tasks draft outer m).result = .error e) :
    s.Stuck n m (s.runWithin n tasks draft outer m).targets e := by
  induction n generalizing tasks draft outer m with
  | zero =>
      rw [runWithin] at h ⊢
      refine run_stuck (fun d tasks outer _ _ _ _ hend => ?_) htasks h
      exact .inr ⟨(Except.error.inj hend).symm, Nat.le_refl _⟩
  | succ n ih =>
      rw [runWithin] at h ⊢
      refine run_stuck (fun d tasks outer htasks hd hp hnone hfail => ?_) htasks h
      rw [enter] at hfail ⊢
      split at hfail
      · next e' hdir =>
          obtain rfl := Except.error.inj hfail
          exact .inl (.inl ⟨d.actual, d.result, by simp [OrderedMap.get?_insert, Finding.after], hdir⟩)
      · next ds hds =>
          have hlength : (m.insert d.actual d.result).keys.length = m.keys.length + 1 := by
            rw [keys_insert_of_get?_eq_none hnone, List.length_append, List.length_singleton]
          rcases ih (pending_enter htasks hds hnone) hfail with hfails | ⟨rfl, hmany⟩
          · exact .inl hfails
          · refine .inr ⟨rfl, ?_⟩
            rw [hlength] at hmany
            show _ ≤ (s.runWithin n _ _ _ _).targets.keys.length
            omega

theorem enter_stuck {n : Nat} {file target : Path}
    (h : (s.enter (s.runWithin n) file target [] [] m).result = .error e) :
    s.Stuck n (m.insert file target) (s.enter (s.runWithin n) file target [] [] m).targets e := by
  rw [enter] at h ⊢
  split at h
  · next e' hdir =>
      obtain rfl := Except.error.inj h
      exact .inl (.inl ⟨file, target, by simp [OrderedMap.get?_insert, Finding.after], hdir⟩)
  · next ds hds =>
      refine runWithin_stuck (fun d hd => ?_) h
      exact ⟨file, target, ds, by simp [OrderedMap.get?_insert], hds, by simpa using hd⟩

/-- A search goes into fewer documents than it may. -/
theorem length_keys_le {m' : Targets} {file target : Path}
    (h : s.Grows ((.empty : Targets).insert file target) m') : m'.keys.length ≤ documentBound := by
  have hshort : ∀ p ∈ m'.keys.erase file, p.toText.byteLength < pathLimit := by
    intro p hp
    obtain ⟨hne, hmem⟩ := (List.Nodup.mem_erase_iff m'.nodup).1 hp
    have hnew : p ∉ ((.empty : Targets).insert file target).keys := by
      rw [keys_enter, List.mem_singleton]
      exact hne
    exact (refusal?_eq_none (refusal?_of_isPage? (h.isPage? hmem hnew))).2
  have hnodup : m'.keys.Nodup := m'.nodup
  have hlt : (m'.keys.erase file).length < documentBound := by
    unfold documentBound
    exact length_lt_of_short (hnodup.erase file) hshort
  have hfile : m'.get? file = some target := h.get?_mono (by simp [OrderedMap.get?_insert])
  rw [List.length_erase_of_mem (mem_keys_of_get? hfile)] at hlt
  omega

/-- **A search that fails** does so at a document with a target. -/
theorem collect_error {file target : Path}
    (h : (s.collect file target .empty).result = .error e) :
    s.Fails (s.collect file target .empty).targets e := by
  have hroot : OrderedMap.get? (.empty : Targets) file = none := OrderedMap.get?_empty file
  have hgrows : s.Grows ((.empty : Targets).insert file target)
      (s.collect file target .empty).targets := collect_grows hroot
  have hmany := length_keys_le hgrows
  have hcollect : s.collect file target .empty =
      s.enter (s.runWithin documentBound) file target [] [] .empty :=
    collect_of_unmapped hroot
  rw [hcollect] at h hmany ⊢
  refine (enter_stuck h).resolve_right ?_
  rintro ⟨-, hlength⟩
  rw [keys_enter, List.length_singleton] at hlength
  omega

/-! ## Back from the recursion -/

theorem Follows.grows {m m' : Targets} {ds : List Directive} {es : List Event} {ts : List Outline}
    (h : s.Follows m ds m' es ts) (hds : ∀ d ∈ ds, s.Pending m d) : s.Grows m m' := by
  induction h with
  | nil => exact .refl
  | kept _ _ ih => exact ih fun d hd => hds d (List.mem_cons_of_mem _ hd)
  | revisited _ _ _ ih => exact ih fun d hd => hds d (List.mem_cons_of_mem _ hd)
  | promoted hp hnone hdir hf₁ hf₂ ih₁ ih₂ =>
      have hinner := ih₁ fun d hd => ⟨_, _, _, by simp [OrderedMap.get?_insert], hdir, hd⟩
      have hrest := ih₂ fun d hd => by
        obtain ⟨file, target, ds, hm, hds, hmem⟩ := hds d (List.mem_cons_of_mem _ hd)
        exact ⟨file, target, ds, hf₁.get?_mono (get?_insert_of_get?_eq_none hnone hm), hds, hmem⟩
      have hstep := Grows.step .refl (hds _ List.mem_cons_self) hp hnone
      exact (hstep.trans hinner).trans hrest

/-- The agenda does what the recursion says, if it may go into so many documents. -/
theorem Follows.runWithin_eq {m m' : Targets} {ds : List Directive} {es : List Event}
    {ts : List Outline} (h : s.Follows m ds m' es ts) {n : Nat}
    (hmany : m'.keys.length ≤ m.keys.length + n) :
    ∃ n', m.keys.length + n = m'.keys.length + n' ∧ ∀ tasks draft outer,
      s.runWithin n (ds.map .follow ++ tasks) draft outer m =
        (s.runWithin n' tasks (draft.addAll ts) outer m').afterAll es := by
  induction h generalizing n with
  | nil => exact ⟨n, rfl, fun _ _ _ => rfl⟩
  | kept hp _ ih =>
      obtain ⟨n', hn, hrun⟩ := ih hmany
      refine ⟨n', hn, fun tasks draft outer => ?_⟩
      rw [List.map_cons, List.cons_append, runWithin_kept hp, hrun, Finding.afterAll_cons]
  | revisited hp hm _ ih =>
      obtain ⟨n', hn, hrun⟩ := ih hmany
      refine ⟨n', hn, fun tasks draft outer => ?_⟩
      rw [List.map_cons, List.cons_append, runWithin_revisited hp hm, hrun, Finding.afterAll_cons,
        OpenPage.addAll_cons, Outline.page_node]
      rfl
  | @promoted m m₁ m₂ d ds inner es₁ es₂ ts₁ ts₂ hp hnone hdir hf₁ hf₂ ih₁ ih₂ =>
      have hlength : (m.insert d.actual d.result).keys.length = m.keys.length + 1 := by
        rw [keys_insert_of_get?_eq_none hnone, List.length_append, List.length_singleton]
      obtain ⟨added₁, hkeys₁⟩ := hf₁.keys_append
      obtain ⟨added₂, hkeys₂⟩ := hf₂.keys_append
      have hle₁ : (m.insert d.actual d.result).keys.length ≤ m₁.keys.length := by simp [hkeys₁]
      have hle₂ : m₁.keys.length ≤ m₂.keys.length := by simp [hkeys₂]
      obtain ⟨k, rfl⟩ : ∃ k, n = k + 1 := ⟨n - 1, by omega⟩
      obtain ⟨n₁, hn₁, hrun₁⟩ := @ih₁ k (by omega)
      obtain ⟨n₂, hn₂, hrun₂⟩ := @ih₂ n₁ (by omega)
      refine ⟨n₂, by omega, fun tasks draft outer => ?_⟩
      rw [List.map_cons, List.cons_append, runWithin_promoted hp hnone hdir, hrun₁, runWithin_close,
        OpenPage.page_addAll d.actual, hrun₂, OpenPage.addAll_cons]
      simp [Finding.afterAll]

/-- **The recursion is a search.** If the directives of a document can be followed, a search does
so, and comes to its end. -/
theorem collect_of_follows {file target : Path} {ds : List Directive} {m' : Targets}
    {es : List Event} {ts : List Outline} (hdir : s.directives file target = .ok ds)
    (h : s.Follows ((.empty : Targets).insert file target) ds m' es ts) :
    s.collect file target .empty =
      ⟨m', .entered file target :: es, .ok (Outline.node file target ts).page⟩ := by
  have hgrows : s.Grows ((.empty : Targets).insert file target) m' :=
    h.grows fun d hd => ⟨file, target, ds, by simp [OrderedMap.get?_insert], hdir, hd⟩
  have hmany := length_keys_le hgrows
  obtain ⟨n', -, hrun⟩ := @Follows.runWithin_eq s _ _ _ _ _ h documentBound (by omega)
  have hroot : OrderedMap.get? (.empty : Targets) file = none := OrderedMap.get?_empty file
  have hall := hrun [] ⟨target, []⟩ []
  rw [List.append_nil] at hall
  rw [collect_of_unmapped hroot]
  simp only [enter, hdir, List.append_nil, hall]
  cases n' <;> simp [runWithin, run, finish, OpenPage.page_addAll file, Finding.after,
    Finding.afterAll]

end Search

end Folio

import Folio.Proofs.Places
import Folio.Proofs.Precedence
import Mathlib.Data.List.Forall2

/-!
# What a file of settings says

The entries of a file say something at a name if there is a value, other than nothing, whose text is
more than white space. **What is said settles everything**: entries are refused if they lack a
source, or say something that is not understood (`Settings.Refused`), and else they describe
settings (`Settings.Describes`). No entries do both.

A third way is left. Some values have no text, and some texts cannot be looked up as the name of an
encoding; entries without these are legible (`Settings.Legible`). If entries are not, reading may
fail without a refusal. The proof goes through the checks once, in their order, and says of each
what is known if it fails (`Settings.ofEntries_decided`). That entries which describe settings are
legible, and are not refused, is shown apart from it.

What counts as nothing is taken for a mapping without entries, **also an empty list or the number
zero** (`Settings.vacant_unrefused`).

All this holds of every library, whatever content its loader gives to the bytes of a file, as long
as it has the encoding of the default.

Main result: `Settings.load_decides`.
-/

namespace Folio

namespace Settings.Library

variable {lib : Library} {name : Text}

/-- A name that can be looked up is just not found. -/
theorem fault_eq_unknown {fault : Encoding.NameFault} (hnull : '\x00' ∉ name)
    (hhalf : ∀ c ∈ name, Half.isHalf c = false) (h : lib.find name = .error fault) :
    fault = .unknown := by
  have hany : ¬ name.any Half.isHalf = true := by simpa using hhalf
  rw [find, if_neg hany, if_neg hnull] at h
  split at h
  · cases h
  · exact (Except.error.inj h).symm

theorem of_find_eq_ok {u : Unit} (h : lib.find name = .ok u) :
    '\x00' ∉ name ∧ ∀ c ∈ name, Half.isHalf c = false := by
  rw [find] at h
  split at h
  · cases h
  · next hany =>
      split at h
      · cases h
      · next hnull => exact ⟨hnull, by simpa using hany⟩

end Settings.Library

/-- Whether an error refuses what is given, and so it has been understood. -/
def SettingsError.isRefusal : SettingsError → Bool
  | .noSource | .skipNotBool | .encoding _ .unknown | .attributesNotMapping | .assignment _ => true
  | _ => false

/-- Whether an error is about something that has no text, or that cannot be looked up. -/
def SettingsError.isIllegible : SettingsError → Bool
  | .textless _ | .encoding _ .nullCharacter | .encoding _ .half => true
  | _ => false

theorem SettingsError.not_isRefusal {e : SettingsError} (h : e.isIllegible = true) :
    ¬ e.isRefusal = true := by
  cases e with
  | encoding name fault => cases fault <;> simp_all [isIllegible, isRefusal]
  | _ => simp_all [isIllegible, isRefusal]

namespace Settings

/-! ## What entries say -/

section

variable (store : Store) (es : List (Value × Value))

def HasText (v : Value) : Prop := ∃ s, store.toText v = .ok s

/-- Nothing is said at a name: there is no value, or nothing, or a text of white space. -/
def Silent (name : String) : Prop :=
  ∀ v, find? name es = some v →
    v = .atom .null ∨ ∃ raw, store.toText v = .ok raw ∧ ∀ c ∈ raw, isBlank c = true

/-- What is said at a name: the text of a value, without white space around it. -/
def Says (name : String) (s : Text) : Prop :=
  s ≠ [] ∧ ∃ v raw, find? name es = some v ∧ v ≠ .atom .null ∧ store.toText v = .ok raw ∧
    s = Text.trim raw

/-- What is said at a name, or what holds if nothing is said. -/
def SaysOr (name : String) (default s : Text) : Prop :=
  Says store es name s ∨ Silent store es name ∧ s = default

/-- The name and the text of an attribute are those of an entry, where nothing has an empty text. -/
def Writes (e : Value × Value) (x : Text × Text) : Prop :=
  store.toText e.1 = .ok x.1 ∧
    (e.2 = .atom .null ∧ x.2 = [] ∨ e.2 ≠ .atom .null ∧ store.toText e.2 = .ok x.2)

/-- The attributes that are said: each name once, at its first place, with its last text. -/
def SaysAttributes (a : Attributes) : Prop :=
  (∀ v, find? "attributes" es = some v → v = .atom .null) ∧ a.entries = [] ∨
    ∃ v entries texts, find? "attributes" es = some v ∧ store.entries? v = some entries ∧
      List.Forall₂ (Writes store) entries texts ∧ a.entries = Entries.latest texts

/-- The entries of a file in the directory `base` describe settings. The source is said, the working
directory and the encoding have defaults, and something is done unless it is said to skip. -/
structure Describes (base : Path) (s : Settings) : Prop where
  source : ∃ x, Says store es "source" x ∧ s.source = base.join (.ofText x)
  workingDir : ∃ x, SaysOr store es "working_dir" defaultWorkingDir x ∧
    s.workingDir = base.join (.ofText x)
  encoding : SaysOr store es "source_encoding" defaultEncoding s.encoding
  attributes : SaysAttributes store es s.attributes
  skip : find? "skip" es = some (.atom (.bool s.skip)) ∨ find? "skip" es = none ∧ s.skip = false

/-- Why entries are no settings: no source is said, there is something else than a truth value for
whether to skip, the library has no encoding of the name that is said, or there is something else
than a mapping for the attributes. -/
inductive Refused (lib : Library) : Prop where
  | source (h : Silent store es "source")
  | skip {v : Value} (h : find? "skip" es = some v) (hv : ∀ b, v ≠ .atom (.bool b))
  | encoding {name : Text} (h : Says store es "source_encoding" name)
      (hname : lib.find name ≠ .ok ())
  | attributes {v : Value} (h : find? "attributes" es = some v) (hv : v ≠ .atom .null)
      (hmap : store.entries? v = none)

/-- Whatever a text is asked for has one, and the name of the encoding can be looked up: it has
neither null characters nor halves of pairs. -/
structure Legible : Prop where
  texts : ∀ name ∈ ["source", "working_dir", "source_encoding"], ∀ v, find? name es = some v →
    HasText store v
  encoding : ∀ name, Says store es "source_encoding" name →
    '\x00' ∉ name ∧ ∀ c ∈ name, Half.isHalf c = false
  attributes : ∀ v entries, find? "attributes" es = some v → store.entries? v = some entries →
    ∀ e ∈ entries, HasText store e.1 ∧ HasText store e.2

end

/-- The first name of the path stands for the home directory of a user. -/
def BeginsAtHome (p : Path) : Prop :=
  p.anchor = .here ∧ (p.names.head?.bind fun n => n.text.head?) = some '~'

instance (p : Path) : Decidable (BeginsAtHome p) := inferInstanceAs (Decidable (_ ∧ _))

variable {lib : Library} {homes : Homes} {base : Path} {store : Store} {es : List (Value × Value)}
  {name : String}

/-! ## Texts at names -/

theorem Says.unique {s s' : Text} (h : Says store es name s) (h' : Says store es name s') :
    s = s' := by
  obtain ⟨-, v, raw, hfind, -, hraw, rfl⟩ := h
  obtain ⟨-, v', raw', hfind', -, hraw', rfl⟩ := h'
  obtain rfl := Option.some.inj (hfind.symm.trans hfind')
  rw [Except.ok.inj (hraw.symm.trans hraw')]

theorem Says.not_silent {s : Text} (h : Says store es name s) : ¬ Silent store es name := by
  obtain ⟨hs, v, raw, hfind, hv, hraw, rfl⟩ := h
  intro hsilent
  obtain hnull | ⟨raw', hraw', hblank⟩ := hsilent v hfind
  · exact hv hnull
  · rw [hraw] at hraw'
    obtain rfl := Except.ok.inj hraw'
    exact hs (Text.trim_eq_nil_iff.2 hblank)

theorem SaysOr.unique {default s s' : Text} (h : SaysOr store es name default s)
    (h' : SaysOr store es name default s') : s = s' := by
  obtain h | ⟨hsilent, rfl⟩ := h
  · obtain h' | ⟨hsilent, -⟩ := h'
    · exact h.unique h'
    · exact absurd hsilent h.not_silent
  · obtain h' | ⟨-, rfl⟩ := h'
    · exact absurd hsilent h'.not_silent
    · rfl

theorem Says.hasText {s : Text} (h : Says store es name s) {v : Value}
    (hv : find? name es = some v) : HasText store v := by
  obtain ⟨-, v', raw, hfind, -, hraw, -⟩ := h
  obtain rfl := Option.some.inj (hfind.symm.trans hv)
  exact ⟨raw, hraw⟩

theorem Silent.hasText (h : Silent store es name) {v : Value} (hv : find? name es = some v) :
    HasText store v := by
  obtain rfl | ⟨raw, hraw, -⟩ := h v hv
  · exact ⟨_, rfl⟩
  · exact ⟨raw, hraw⟩

theorem SaysOr.hasText {default s : Text} (h : SaysOr store es name default s) {v : Value}
    (hv : find? name es = some v) : HasText store v :=
  h.elim (fun h => h.hasText hv) fun h => h.1.hasText hv

theorem textOf_eq_ok_iff {v : Value} {s : Text} :
    textOf store v = .ok s ↔ store.toText v = .ok s := by
  rw [textOf]
  cases store.toText v <;> simp

theorem textOf_error {v : Value} {e : SettingsError} (h : textOf store v = .error e) :
    e.isIllegible = true ∧ ¬ HasText store v := by
  rw [textOf] at h
  cases htext : store.toText v with
  | ok s => simp [htext] at h
  | error f =>
      rw [htext] at h
      obtain rfl := Except.error.inj h
      refine ⟨rfl, ?_⟩
      rintro ⟨s, hs⟩
      simp [htext] at hs

theorem text?_of_find? {v : Value} (h : find? name es = some v) (hv : v ≠ .atom .null) :
    text? store name es = (textOf store v).map fun raw =>
      if Text.trim raw = [] then none else some (Text.trim raw) := by
  rw [text?, h]
  split
  · next heq => cases heq
  · next heq => exact absurd (Option.some.inj heq) hv
  · next heq =>
      obtain rfl := Option.some.inj heq
      cases textOf store v with
      | error e => rfl
      | ok raw =>
          simp only [bind, Except.bind, Except.map]
          split <;> simp_all [pure, Except.pure]

theorem text?_of_absent (h : ∀ v, find? name es = some v → v = .atom .null) :
    text? store name es = .ok none := by
  rw [text?]
  cases hfind : find? name es with
  | none => rfl
  | some v => rw [h v hfind]

/-- What is found at a name is nothing, if there is a value at all, or it is another value. -/
theorem null_or_find? (name : String) (es : List (Value × Value)) :
    (∀ v, find? name es = some v → v = .atom .null) ∨
      ∃ v, find? name es = some v ∧ v ≠ .atom .null := by
  cases find? name es with
  | none =>
      left
      intro v hv
      cases hv
  | some v =>
      by_cases hnull : v = .atom .null
      · left
        intro w hw
        rw [← Option.some.inj hw, hnull]
      · exact .inr ⟨v, rfl, hnull⟩

theorem text?_error {e : SettingsError} (h : text? store name es = .error e) :
    e.isIllegible = true ∧ ∃ v, find? name es = some v ∧ ¬ HasText store v := by
  obtain hnull | ⟨v, hfind, hv⟩ := null_or_find? name es
  · simp [text?_of_absent hnull] at h
  · rw [text?_of_find? hfind hv] at h
    obtain ⟨he, htext⟩ := textOf_error (error_of_map_eq_error h)
    exact ⟨he, v, hfind, htext⟩

/-- **What is said at a name** is what is read there. -/
theorem text?_ok {r : Option Text} (h : text? store name es = .ok r) :
    (r = none ∧ Silent store es name) ∨ ∃ s, r = some s ∧ Says store es name s := by
  obtain hnull | ⟨v, hfind, hv⟩ := null_or_find? name es
  · rw [text?_of_absent hnull] at h
    exact .inl ⟨(Except.ok.inj h).symm, fun v hv => .inl (hnull v hv)⟩
  · rw [text?_of_find? hfind hv] at h
    cases htext : textOf store v with
    | error e => simp [htext, Except.map] at h
    | ok raw =>
        rw [htext] at h
        obtain rfl := Except.ok.inj h
        have hraw := textOf_eq_ok_iff.1 htext
        by_cases hblank : Text.trim raw = []
        · refine .inl ⟨if_pos hblank, fun v' hv' => .inr ⟨raw, ?_, Text.trim_eq_nil_iff.1 hblank⟩⟩
          rwa [← Option.some.inj (hfind.symm.trans hv')]
        · exact .inr ⟨_, if_neg hblank, hblank, v, raw, hfind, hv, hraw, rfl⟩

theorem says_iff_text? {s : Text} :
    Says store es name s ↔ text? store name es = .ok (some s) := by
  constructor
  · intro hs
    cases hr : text? store name es with
    | error e =>
        obtain ⟨-, v, hfind, hno⟩ := text?_error hr
        exact absurd (hs.hasText hfind) hno
    | ok r =>
        obtain ⟨-, hsilent⟩ | ⟨s', rfl, hs'⟩ := text?_ok hr
        · exact absurd hsilent hs.not_silent
        · rw [hs.unique hs']
  · intro h
    obtain ⟨heq, -⟩ | ⟨s', heq, hs⟩ := text?_ok h
    · cases heq
    · rwa [Option.some.inj heq]

theorem text?_getD {r : Option Text} (h : text? store name es = .ok r) (default : Text) :
    SaysOr store es name default (r.getD default) := by
  obtain ⟨rfl, hsilent⟩ | ⟨s, rfl, hs⟩ := text?_ok h
  · exact .inr ⟨hsilent, rfl⟩
  · exact .inl hs

/-! ## The other checks -/

theorem skipOf_ok {b : Bool} (h : skipOf es = .ok b) :
    find? "skip" es = some (.atom (.bool b)) ∨ find? "skip" es = none ∧ b = false := by
  rw [skipOf] at h
  split at h
  · next hfind => exact .inr ⟨hfind, (Except.ok.inj h).symm⟩
  · next b' hfind => exact .inl (Except.ok.inj h ▸ hfind)
  · cases h

theorem skipOf_error {e : SettingsError} (h : skipOf es = .error e) :
    e = .skipNotBool ∧ ∃ v, find? "skip" es = some v ∧ ∀ b, v ≠ .atom (.bool b) := by
  rw [skipOf] at h
  split at h
  · cases h
  · cases h
  · next v hv hfind => exact ⟨(Except.error.inj h).symm, v, hfind, fun b hb => hv b hb⟩

theorem expand_of_not_home {p : Path} (h : ¬ BeginsAtHome p) : expand homes p = some p := by
  obtain ⟨anchor, names⟩ := p
  rw [expand]
  split
  · next n names' hanchor hnames =>
      split
      · next user htext =>
          subst hnames
          exact absurd ⟨hanchor, congrArg List.head? htext⟩ h
      · rfl
  · rfl

theorem place_of_not_home {x : Text} (h : ¬ BeginsAtHome (.ofText x)) :
    place homes base x = .ok (base.join (.ofText x)) := by
  rw [place, expand_of_not_home h]

theorem checkEncoding_ok {x : Text} {u : Unit} (h : checkEncoding lib x = .ok u) :
    lib.find x = .ok () := by
  rw [checkEncoding] at h
  cases hfind : lib.find x with
  | ok u => rfl
  | error fault => simp [hfind, Except.mapError] at h

theorem checkEncoding_error {x : Text} {e : SettingsError} (h : checkEncoding lib x = .error e) :
    ∃ fault, lib.find x = .error fault ∧ e = .encoding x fault := by
  rw [checkEncoding] at h
  cases hfind : lib.find x with
  | ok u => simp [hfind, Except.mapError] at h
  | error fault =>
      rw [hfind] at h
      exact ⟨fault, rfl, (Except.error.inj h).symm⟩

/-! ## Attributes -/

theorem attributeText_eq {v : Value} (hv : v ≠ .atom .null) :
    attributeText store v = textOf store v := by
  rw [attributeText]
  exact hv

/-- The name and the text of one attribute. -/
def attributeOf (store : Store) (e : Value × Value) : Except SettingsError (Text × Text) := do
  return (← textOf store e.1, ← attributeText store e.2)

theorem attributeOf_ok {e : Value × Value} {x : Text × Text} (h : attributeOf store e = .ok x) :
    Writes store e x := by
  obtain ⟨key, hkey, h⟩ := exists_of_bind_eq_ok h
  obtain ⟨text, htext, h⟩ := exists_of_bind_eq_ok h
  obtain rfl := Except.ok.inj h
  refine ⟨textOf_eq_ok_iff.1 hkey, ?_⟩
  by_cases hv : e.2 = .atom .null
  · rw [hv] at htext
    exact .inl ⟨hv, (Except.ok.inj htext).symm⟩
  · rw [attributeText_eq hv] at htext
    exact .inr ⟨hv, textOf_eq_ok_iff.1 htext⟩

theorem attributeOf_error {e : Value × Value} {err : SettingsError}
    (h : attributeOf store e = .error err) :
    err.isIllegible = true ∧ ¬ (HasText store e.1 ∧ HasText store e.2) := by
  obtain hkey | ⟨key, hkey, h⟩ := error_of_bind_eq_error h
  · obtain ⟨herr, hno⟩ := textOf_error hkey
    exact ⟨herr, fun hboth => hno hboth.1⟩
  · obtain htext | ⟨text, -, h⟩ := error_of_bind_eq_error h
    · by_cases hv : e.2 = .atom .null
      · rw [hv] at htext
        cases htext
      · rw [attributeText_eq hv] at htext
        obtain ⟨herr, hno⟩ := textOf_error htext
        exact ⟨herr, fun hboth => hno hboth.2⟩
    · cases h

theorem mapM_attributeOf_ok {entries : List (Value × Value)} {texts : List (Text × Text)}
    (h : entries.mapM (attributeOf store) = .ok texts) :
    List.Forall₂ (Writes store) entries texts := by
  induction entries generalizing texts with
  | nil =>
      obtain rfl := Except.ok.inj h
      exact .nil
  | cons e entries ih =>
      rw [List.mapM_cons] at h
      obtain ⟨x, hx, h⟩ := exists_of_bind_eq_ok h
      obtain ⟨rest, hrest, h⟩ := exists_of_bind_eq_ok h
      obtain rfl := Except.ok.inj h
      exact .cons (attributeOf_ok hx) (ih hrest)

theorem mapM_attributeOf_error {entries : List (Value × Value)} {err : SettingsError}
    (h : entries.mapM (attributeOf store) = .error err) :
    err.isIllegible = true ∧ ∃ e ∈ entries, ¬ (HasText store e.1 ∧ HasText store e.2) := by
  induction entries with
  | nil => cases h
  | cons e entries ih =>
      rw [List.mapM_cons] at h
      obtain hx | ⟨x, -, h⟩ := error_of_bind_eq_error h
      · obtain ⟨herr, hno⟩ := attributeOf_error hx
        exact ⟨herr, e, List.mem_cons_self, hno⟩
      · obtain hrest | ⟨rest, -, h⟩ := error_of_bind_eq_error h
        · obtain ⟨herr, e', he', hno⟩ := ih hrest
          exact ⟨herr, e', List.mem_cons_of_mem _ he', hno⟩
        · cases h

theorem attributesOf_of_absent (h : ∀ v, find? "attributes" es = some v → v = .atom .null) :
    attributesOf store es = .ok .empty := by
  rw [attributesOf]
  cases hfind : find? "attributes" es with
  | none => rfl
  | some v => rw [h v hfind]

theorem attributesOf_of_find? {v : Value} (h : find? "attributes" es = some v)
    (hv : v ≠ .atom .null) :
    attributesOf store es =
      match store.entries? v with
      | some entries => (entries.mapM (attributeOf store)).map .ofList
      | none => .error .attributesNotMapping := by
  rw [attributesOf, h]
  split
  · next heq => cases heq
  · next heq => exact absurd (Option.some.inj heq) hv
  · next heq =>
      obtain rfl := Option.some.inj heq
      cases store.entries? v with
      | none => rfl
      | some entries => rfl

theorem attributesOf_ok {a : Attributes} (h : attributesOf store es = .ok a) :
    SaysAttributes store es a := by
  obtain hnull | ⟨v, hfind, hv⟩ := null_or_find? "attributes" es
  · rw [attributesOf_of_absent hnull] at h
    obtain rfl := Except.ok.inj h
    exact .inl ⟨hnull, rfl⟩
  · rw [attributesOf_of_find? hfind hv] at h
    cases hentries : store.entries? v with
    | none => simp [hentries] at h
    | some entries =>
        simp only [hentries] at h
        cases htexts : entries.mapM (attributeOf store) with
        | error e => simp [htexts, Except.map] at h
        | ok texts =>
            rw [htexts] at h
            obtain rfl := Except.ok.inj h
            exact .inr ⟨v, entries, texts, hfind, hentries, mapM_attributeOf_ok htexts,
              OrderedMap.entries_ofList texts⟩

theorem attributesOf_error {err : SettingsError} (h : attributesOf store es = .error err) :
    ∃ v, find? "attributes" es = some v ∧
      (err = .attributesNotMapping ∧ v ≠ .atom .null ∧ store.entries? v = none ∨
        err.isIllegible = true ∧ ∃ entries, store.entries? v = some entries ∧
          ∃ e ∈ entries, ¬ (HasText store e.1 ∧ HasText store e.2)) := by
  obtain hnull | ⟨v, hfind, hv⟩ := null_or_find? "attributes" es
  · simp [attributesOf_of_absent hnull] at h
  · rw [attributesOf_of_find? hfind hv] at h
    refine ⟨v, hfind, ?_⟩
    cases hentries : store.entries? v with
    | none =>
        simp only [hentries] at h
        exact .inl ⟨(Except.error.inj h).symm, hv, rfl⟩
    | some entries =>
        simp only [hentries] at h
        obtain ⟨herr, hno⟩ := mapM_attributeOf_error (error_of_map_eq_error h)
        exact .inr ⟨herr, entries, rfl, hno⟩

/-! ## All checks, in their order -/

/-- What comes of entries: settings that they describe, a refusal, or that something is not
legible. -/
inductive Decided (lib : Library) (base : Path) (store : Store) (es : List (Value × Value)) :
    Except SettingsError Settings → Prop where
  | settled {s : Settings} (h : Describes store es base s)
      (hname : lib.find s.encoding = .ok ()) : Decided lib base store es (.ok s)
  | refused {e : SettingsError} (he : e.isRefusal = true) (h : Refused store es lib) :
      Decided lib base store es (.error e)
  | illegible {e : SettingsError} (he : e.isIllegible = true) (h : ¬ Legible store es) :
      Decided lib base store es (.error e)

theorem decided_bind {α : Type} {x : Except SettingsError α}
    {f : α → Except SettingsError Settings}
    (herror : ∀ e, x = .error e → Decided lib base store es (.error e))
    (hok : ∀ a, x = .ok a → Decided lib base store es (f a)) : Decided lib base store es (x >>= f) := by
  cases x with
  | error e => exact herror e rfl
  | ok a => exact hok a rfl

theorem decided_of_text?_error (hname : name ∈ ["source", "working_dir", "source_encoding"])
    {e : SettingsError} (h : text? store name es = .error e) :
    Decided lib base store es (.error e) := by
  obtain ⟨he, v, hfind, hno⟩ := text?_error h
  exact .illegible he fun hlegible => hno (hlegible.texts name hname v hfind)

/-- No path is said that begins with a home directory. -/
def Homeless (store : Store) (es : List (Value × Value)) : Prop :=
  ∀ name ∈ ["source", "working_dir"], ∀ x, Says store es name x → ¬ BeginsAtHome (.ofText x)

theorem SaysOr.not_beginsAtHome {x : Text} (hhome : Homeless store es)
    (h : SaysOr store es "working_dir" defaultWorkingDir x) : ¬ BeginsAtHome (.ofText x) := by
  obtain h | ⟨-, rfl⟩ := h
  · exact hhome "working_dir" (by simp) x h
  · decide

theorem decided_of_fault (hdefault : lib.find defaultEncoding = .ok ()) {x : Text}
    {fault : Encoding.NameFault}
    (h : SaysOr store es "source_encoding" defaultEncoding x)
    (hfault : lib.find x = .error fault) :
    Decided lib base store es (.error (.encoding x fault)) := by
  obtain h | ⟨-, rfl⟩ := h
  · by_cases hunknown : fault = .unknown
    · subst hunknown
      exact .refused rfl (.encoding h (by simp [hfault]))
    · refine .illegible (by cases fault <;> simp_all [SettingsError.isIllegible]) fun hlegible => ?_
      obtain ⟨hnull, hhalf⟩ := hlegible.encoding x h
      exact hunknown (Library.fault_eq_unknown hnull hhalf hfault)
  · simp [hdefault] at hfault

/-- **The checks go through what entries say**, and the first one that fails settles it. -/
theorem ofEntries_decided (hdefault : lib.find defaultEncoding = .ok ())
    (hhome : Homeless store es) :
    Decided lib base store es (ofEntries lib homes base store es) := by
  unfold ofEntries
  refine decided_bind (fun e he => decided_of_text?_error (by simp) he) fun r hsource => ?_
  obtain ⟨rfl, hsilent⟩ | ⟨source, rfl, hsaid⟩ := text?_ok hsource
  · exact .refused rfl (.source hsilent)
  refine decided_bind (fun e he => decided_of_text?_error (by simp) he) fun r hworking => ?_
  have hworking := text?_getD hworking defaultWorkingDir
  refine decided_bind (fun e he => decided_of_text?_error (by simp) he) fun r hencoding => ?_
  have hencoding := text?_getD hencoding defaultEncoding
  refine decided_bind (fun e he => ?_) fun skip hskip => ?_
  · obtain ⟨rfl, v, hfind, hv⟩ := skipOf_error he
    exact .refused rfl (.skip hfind hv)
  rw [place_of_not_home (hhome "source" (by simp) source hsaid),
    place_of_not_home (hworking.not_beginsAtHome hhome)]
  change Decided lib base store es (checkEncoding lib _ >>= fun _ => attributesOf store es >>= _)
  refine decided_bind (fun e he => ?_) fun u hname => ?_
  · obtain ⟨fault, hfault, rfl⟩ := checkEncoding_error he
    exact decided_of_fault hdefault hencoding hfault
  refine decided_bind (fun e he => ?_) fun a ha => ?_
  · obtain ⟨v, hfind, ⟨rfl, hv, hmap⟩ | ⟨herr, entries, hentries, x, hx, hno⟩⟩ :=
      attributesOf_error he
    · exact .refused rfl (.attributes hfind hv hmap)
    · exact .illegible herr fun hlegible => hno (hlegible.attributes v entries hfind hentries x hx)
  exact .settled ⟨⟨source, hsaid, rfl⟩, ⟨_, hworking, rfl⟩, hencoding, attributesOf_ok ha,
    skipOf_ok hskip⟩ (checkEncoding_ok hname)

/-! ## Only one of the three happens -/

theorem Writes.unique {e : Value × Value} {x y : Text × Text} (h : Writes store e x)
    (h' : Writes store e y) : x = y := by
  obtain ⟨hkey, htext⟩ := h
  obtain ⟨hkey', htext'⟩ := h'
  refine Prod.ext (Except.ok.inj (hkey.symm.trans hkey')) ?_
  obtain ⟨hnull, hx⟩ | ⟨hv, hx⟩ := htext
  · obtain ⟨-, hy⟩ | ⟨hv, -⟩ := htext'
    · rw [hx, hy]
    · exact absurd hnull hv
  · obtain ⟨hnull, -⟩ | ⟨-, hy⟩ := htext'
    · exact absurd hnull hv
    · exact Except.ok.inj (hx.symm.trans hy)

theorem Writes.hasText {e : Value × Value} {x : Text × Text} (h : Writes store e x) :
    HasText store e.1 ∧ HasText store e.2 := by
  obtain ⟨hkey, ⟨hnull, -⟩ | ⟨-, htext⟩⟩ := h
  · exact ⟨⟨_, hkey⟩, _, by rw [hnull]; rfl⟩
  · exact ⟨⟨_, hkey⟩, _, htext⟩

theorem SaysAttributes.unique {a b : Attributes} (h : SaysAttributes store es a)
    (h' : SaysAttributes store es b) : a = b := by
  refine OrderedMap.eq_of_entries ?_
  obtain ⟨hnull, ha⟩ | ⟨v, entries, texts, hfind, hentries, htexts, ha⟩ := h
  · obtain ⟨-, hb⟩ | ⟨v, entries, texts, hfind, hentries, -, -⟩ := h'
    · rw [ha, hb]
    · rw [hnull v hfind] at hentries
      cases hentries
  · obtain ⟨hnull, -⟩ | ⟨v', entries', texts', hfind', hentries', htexts', hb⟩ := h'
    · rw [hnull v hfind] at hentries
      cases hentries
    · obtain rfl := Option.some.inj (hfind.symm.trans hfind')
      obtain rfl := Option.some.inj (hentries.symm.trans hentries')
      have hright : Relator.RightUnique (Writes store) := fun _ _ _ => Writes.unique
      have hsame : texts = texts' := List.right_unique_forall₂' hright htexts htexts'
      rw [ha, hb, hsame]

namespace Describes

variable {s s' : Settings}

/-- **Entries describe one thing only.** -/
theorem unique (h : Describes store es base s) (h' : Describes store es base s') : s = s' := by
  obtain ⟨x, hx, hsource⟩ := h.source
  obtain ⟨x', hx', hsource'⟩ := h'.source
  obtain ⟨y, hy, hworking⟩ := h.workingDir
  obtain ⟨y', hy', hworking'⟩ := h'.workingDir
  have hencoding := h.encoding.unique h'.encoding
  have hattributes := h.attributes.unique h'.attributes
  have hskip : s.skip = s'.skip := by
    obtain hfind | ⟨hfind, hs⟩ := h.skip <;> obtain hfind' | ⟨hfind', hs'⟩ := h'.skip <;>
      simp_all
  obtain ⟨source, workingDir, encoding, attributes, skip⟩ := s
  obtain ⟨source', workingDir', encoding', attributes', skip'⟩ := s'
  simp only at hsource hsource' hworking hworking' hencoding hattributes hskip
  rw [hsource, hsource', hx.unique hx', hworking, hworking', hy.unique hy', hencoding, hattributes,
    hskip]

theorem not_refused (h : Describes store es base s) (hname : lib.find s.encoding = .ok ()) :
    ¬ Refused store es lib := by
  intro hrefused
  cases hrefused with
  | source hsilent =>
      obtain ⟨x, hx, -⟩ := h.source
      exact hx.not_silent hsilent
  | skip hfind hv =>
      obtain hskip | ⟨hskip, -⟩ := h.skip
      · exact hv _ (Option.some.inj (hfind.symm.trans hskip))
      · exact absurd (hfind.symm.trans hskip) (by simp)
  | encoding hsaid hunknown =>
      obtain hencoding | ⟨hsilent, -⟩ := h.encoding
      · exact hunknown (hsaid.unique hencoding ▸ hname)
      · exact hsaid.not_silent hsilent
  | attributes hfind hv hmap =>
      obtain ⟨hnull, -⟩ | ⟨v, entries, -, hfind', hentries, -⟩ := h.attributes
      · exact hv (hnull _ hfind)
      · obtain rfl := Option.some.inj (hfind.symm.trans hfind')
        exact absurd (hmap.symm.trans hentries) (by simp)

theorem legible (h : Describes store es base s) (hname : lib.find s.encoding = .ok ()) :
    Legible store es where
  texts := by
    obtain ⟨x, hx, -⟩ := h.source
    obtain ⟨y, hy, -⟩ := h.workingDir
    simp only [List.forall_mem_cons, List.not_mem_nil, false_implies, implies_true, and_true]
    exact ⟨fun v => hx.hasText, fun v => hy.hasText, fun v => h.encoding.hasText⟩
  encoding := by
    intro name hsaid
    obtain hencoding | ⟨hsilent, -⟩ := h.encoding
    · rw [hsaid.unique hencoding]
      exact Library.of_find_eq_ok hname
    · exact absurd hsilent hsaid.not_silent
  attributes := by
    intro v entries hfind hentries x hx
    obtain ⟨hnull, -⟩ | ⟨v', entries', texts, hfind', hentries', htexts, -⟩ := h.attributes
    · rw [hnull v hfind] at hentries
      cases hentries
    · obtain rfl := Option.some.inj (hfind.symm.trans hfind')
      obtain rfl := Option.some.inj (hentries.symm.trans hentries')
      have hall := htexts.imp fun _ _ hwrites => And.intro hwrites.hasText hwrites
      exact ((List.forall₂_and_left entries texts).1 hall).1 x hx

end Describes

namespace Decided

variable {r : Except SettingsError Settings}

theorem eq_ok_iff (h : Decided lib base store es r) (s : Settings) :
    r = .ok s ↔ Describes store es base s ∧ lib.find s.encoding = .ok () := by
  constructor
  · rintro rfl
    cases h with
    | settled h hname => exact ⟨h, hname⟩
  · rintro ⟨hs, hname⟩
    cases h with
    | settled h _ => rw [h.unique hs]
    | refused _ h => exact absurd h (hs.not_refused hname)
    | illegible _ h => exact absurd (hs.legible hname) h

theorem of_eq_error (h : Decided lib base store es r) {e : SettingsError} (hr : r = .error e) :
    if e.isRefusal = true then Refused store es lib
    else e.isIllegible = true ∧ ¬ Legible store es := by
  subst hr
  cases h with
  | refused he h => rwa [if_pos he]
  | illegible he h =>
      rw [if_neg (SettingsError.not_isRefusal he)]
      exact ⟨he, h⟩

/-- **Where everything is legible**, the entries are refused, or there are settings. -/
theorem of_legible (h : Decided lib base store es r) (hlegible : Legible store es) :
    ((∃ e, r = .error e ∧ e.isRefusal = true) ↔ Refused store es lib) ∧
      ((∃ s, r = .ok s) ↔ ¬ Refused store es lib) := by
  cases h with
  | settled h hname =>
      have hno := h.not_refused hname
      simp [hno]
  | refused he h => simp [he, h]
  | illegible _ h => exact absurd hlegible h

end Decided

/-! ## Files -/

theorem entries_of_isEmpty {v : Value} (h : store.isEmpty v = true)
    (hentries : store.entries? v = some es) : es = [] := by
  cases v with
  | atom a => cases hentries
  | row items => cases hentries
  | shared id =>
      simp only [Store.isEmpty, Store.entries?] at h hentries
      cases hget : store.get id <;>
        simp_all [Collection.isEmpty, Collection.entries?]

theorem ofEntries_nil (lib : Library) (homes : Homes) (base : Path) (store : Store) :
    ofEntries lib homes base store [] = .error .noSource :=
  rfl

theorem ofContent_of_entries {c : Yaml.Content} (h : c.store.entries? c.root = some es) :
    ofContent lib homes base c = ofEntries lib homes base c.store es := by
  rw [ofContent]
  split
  · next hempty => rw [entries_of_isEmpty hempty h]
  · rw [h]

section

variable {t : FileTree} {p : Path} {bytes : List UInt8} {c : Yaml.Content}

theorem load_eq_ofContent (hread : readFile t p = .ok bytes) (hvalue : lib.parse bytes = .ok c) :
    load homes t p lib = ofContent lib homes p.parent c := by
  simp only [load, hread, hvalue, bind, Except.bind]

theorem load_of_isEmpty (hread : readFile t p = .ok bytes) (hvalue : lib.parse bytes = .ok c)
    (h : c.store.isEmpty c.root = true) : load homes t p lib = .error .noSource := by
  rw [load_eq_ofContent hread hvalue, ofContent, if_pos h, ofEntries_nil]

/-- **What a file says settles whether there are settings, and which**, whatever the library makes
of its bytes; that it has the encoding of the default is all that is asked of it. A file is found to
hold no mapping just if it holds none, nor anything that counts as nothing; and what counts as
nothing has no source. Of a mapping in which no path begins with a home, the settings are those that
it describes. Without settings, it is refused for a reason, or it is not legible; and a legible one
is refused whenever there is a reason, and else has settings. -/
theorem load_decides (hdefault : lib.find defaultEncoding = .ok ())
    (hread : readFile t p = .ok bytes) (hvalue : lib.parse bytes = .ok c)
    (hhome : ∀ es, c.store.entries? c.root = some es → Homeless c.store es) :
    (load homes t p lib = .error .noMapping ↔
      c.store.isEmpty c.root = false ∧ c.store.entries? c.root = none) ∧
    (c.store.isEmpty c.root = true → load homes t p lib = .error .noSource) ∧
    ∀ es, c.store.entries? c.root = some es →
      (∀ s, load homes t p lib = .ok s ↔
        Describes c.store es p.parent s ∧ lib.find s.encoding = .ok ()) ∧
      (∀ e, load homes t p lib = .error e →
        if e.isRefusal = true then Refused c.store es lib
        else e.isIllegible = true ∧ ¬ Legible c.store es) ∧
      (Legible c.store es →
        ((∃ e, load homes t p lib = .error e ∧ e.isRefusal = true) ↔ Refused c.store es lib) ∧
          ((∃ s, load homes t p lib = .ok s) ↔ ¬ Refused c.store es lib)) := by
  have hload : load homes t p lib = ofContent lib homes p.parent c :=
    load_eq_ofContent hread hvalue
  have hdecided : ∀ es, c.store.entries? c.root = some es →
      Decided lib p.parent c.store es (load homes t p lib) := by
    intro es hes
    rw [hload, ofContent_of_entries hes]
    exact ofEntries_decided hdefault (hhome es hes)
  refine ⟨⟨fun h => ?_, fun h => ?_⟩, load_of_isEmpty hread hvalue, fun es hes =>
    ⟨(hdecided es hes).eq_ok_iff, fun e => (hdecided es hes).of_eq_error,
      (hdecided es hes).of_legible⟩⟩
  · constructor
    · rw [Bool.eq_false_iff]
      intro hempty
      rw [load_of_isEmpty hread hvalue hempty] at h
      cases h
    · cases hes : c.store.entries? c.root with
      | none => rfl
      | some es => cases ((hdecided es hes).of_eq_error h).1
  · rw [hload, ofContent, h.1, h.2]
    rfl

end

/-- The content of a file, as the standard library has it; nothing if it has none. -/
def contentOf (t : FileTree) (p : Path) : Yaml.Content :=
  ((readFile t p).toOption.bind fun b => (Library.standard.parse b).toOption).getD .nothing

/-- The entries of a file; none if it holds no mapping. -/
def entriesOf (t : FileTree) (p : Path) : List (Value × Value) :=
  ((contentOf t p).store.entries? (contentOf t p).root).getD []

theorem exists_contentOf (t : FileTree) (p : Path)
    (h : ((readFile t p).toOption.bind fun b => (Library.standard.parse b).toOption).isSome = true) :
    ∃ bytes, readFile t p = .ok bytes ∧ Library.standard.parse bytes = .ok (contentOf t p) := by
  rw [contentOf]
  cases hread : readFile t p with
  | error e => simp [hread, Except.toOption] at h
  | ok bytes =>
      cases hvalue : Library.standard.parse bytes with
      | error e => simp [hread, hvalue, Except.toOption] at h
      | ok c => exact ⟨bytes, rfl, by simp [hvalue, Except.toOption]⟩

theorem entries?_contentOf (t : FileTree) (p : Path)
    (h : ((contentOf t p).store.entries? (contentOf t p).root).isSome = true) :
    (contentOf t p).store.entries? (contentOf t p).root = some (entriesOf t p) := by
  obtain ⟨es, hes⟩ := Option.isSome_iff_exists.1 h
  rw [entriesOf, hes]
  rfl

theorem says_of_toOption {s : Text} (h : (text? store name es).toOption = some (some s)) :
    Says store es name s := by
  refine says_iff_text?.2 ?_
  cases hr : text? store name es with
  | error e => simp [hr, Except.toOption] at h
  | ok r =>
      rw [hr] at h
      exact congrArg Except.ok (Option.some.inj h)

theorem homeless_of_toOption (h : ∀ name ∈ ["source", "working_dir"],
    ∀ r ∈ (text? store name es).toOption, ∀ x ∈ r, ¬ BeginsAtHome (.ofText x)) :
    Homeless store es := by
  intro name hname x hx
  exact h name hname (some x) (by rw [says_iff_text?.1 hx]; rfl) x rfl

/-- A file with a number for the source, two entries that say nothing, and two names of one text. -/
def sparseTree : FileTree := .ofFiles [("/conf/pages.yaml",
  "source: 7\nworking_dir: ' '\nsource_encoding:\nattributes: \x7b1: a, b: , '1': c\x7d\n")]

theorem load_decides_sparse :
    let homes : Homes := fun _ => none
    let p : Path := .ofText "/conf/pages.yaml".toList
    ∃ bytes c es s, (Library.standard.find defaultEncoding = .ok () ∧
        readFile sparseTree p = .ok bytes ∧ Library.standard.parse bytes = .ok c ∧
        c.store.entries? c.root = some es ∧ Homeless c.store es) ∧
      load homes sparseTree p = .ok s ∧ Describes c.store es p.parent s ∧
      s.source = .ofText "/conf/7".toList ∧
      s.workingDir = .ofText "/conf/build/adoc-pages/preprocessed".toList ∧
      s.encoding = "utf-8".toList ∧
      s.attributes.entries = [(['1'], ['c']), (['b'], [])] := by
  intro homes p
  have hdefault : Library.standard.find defaultEncoding = .ok () := rfl
  obtain ⟨bytes, hread, hvalue⟩ := exists_contentOf sparseTree p (by decide +kernel)
  have hes := entries?_contentOf sparseTree p (by decide +kernel)
  have hhome : Homeless (contentOf sparseTree p).store (entriesOf sparseTree p) :=
    homeless_of_toOption (by decide +kernel)
  have hsettings : (match load homes sparseTree p with
      | .ok s => decide (s.source = .ofText "/conf/7".toList ∧
          s.workingDir = .ofText "/conf/build/adoc-pages/preprocessed".toList ∧
          s.encoding = "utf-8".toList ∧ s.attributes.entries = [(['1'], ['c']), (['b'], [])])
      | .error _ => false) = true := by
    decide +kernel
  cases hload : load homes sparseTree p with
  | error e =>
      rw [hload] at hsettings
      cases hsettings
  | ok s =>
      rw [hload] at hsettings
      have hall : ∀ es, (contentOf sparseTree p).store.entries? (contentOf sparseTree p).root =
          some es → Homeless (contentOf sparseTree p).store es := by
        intro es h
        rwa [← Option.some.inj (hes.symm.trans h)]
      have hdescribes := (((load_decides hdefault hread hvalue hall).2.2 _ hes).1 s).1 hload
      exact ⟨bytes, _, _, s, ⟨hdefault, hread, hvalue, hes, hhome⟩, rfl, hdescribes.1,
        of_decide_eq_true hsettings⟩

/-- **An empty list passes for a mapping without entries**, and a name that no encoding can have is
not refused. -/
theorem vacant_unrefused :
    let homes : Homes := fun _ => none
    let p : Path := .ofText "/pages.yaml".toList
    let t : FileTree := .ofFiles [("/pages.yaml", "[]\n")]
    let t' : FileTree := .ofFiles [("/pages.yaml", "source: docs\nsource_encoding: \"a\\0\"\n")]
    (∃ bytes c, readFile t p = .ok bytes ∧ Library.standard.parse bytes = .ok c ∧
      c.root ≠ .atom .null ∧ c.store.entries? c.root = none ∧ load homes t p ≠ .error .noMapping) ∧
    ∃ bytes c es, readFile t' p = .ok bytes ∧ Library.standard.parse bytes = .ok c ∧
      c.store.entries? c.root = some es ∧ Refused c.store es .standard ∧
      ¬ ∃ e, load homes t' p = .error e ∧ e.isRefusal = true := by
  intro homes p t t'
  constructor
  · obtain ⟨bytes, hread, hvalue⟩ := exists_contentOf t p (by decide +kernel)
    have hfixed : Value.isFixed (contentOf t p).root = false := by decide +kernel
    have hnone : ((contentOf t p).store.entries? (contentOf t p).root).isNone = true := by
      decide +kernel
    have hempty : (contentOf t p).store.isEmpty (contentOf t p).root = true := by decide +kernel
    refine ⟨bytes, _, hread, hvalue, ?_, Option.isNone_iff_eq_none.1 hnone, ?_⟩
    · intro hnull
      rw [hnull] at hfixed
      cases hfixed
    · rw [load_of_isEmpty hread hvalue hempty]
      intro h
      cases h
  · obtain ⟨bytes, hread, hvalue⟩ := exists_contentOf t' p (by decide +kernel)
    have hes := entries?_contentOf t' p (by decide +kernel)
    have hname : Says (contentOf t' p).store (entriesOf t' p) "source_encoding" ['a', '\x00'] :=
      says_of_toOption (by decide +kernel)
    have hunknown : Library.standard.find ['a', '\x00'] ≠ .ok () := fun h =>
      (Library.of_find_eq_ok h).1 (by decide)
    refine ⟨bytes, _, _, hread, hvalue, hes, Refused.encoding hname hunknown, ?_⟩
    have hload : (match load homes t' p with
        | .ok _ => false
        | .error e => e.isRefusal) = false := by
      decide +kernel
    rintro ⟨e, he, hrefusal⟩
    rw [he] at hload
    exact absurd hrefusal (Bool.eq_false_iff.1 hload)

end Settings

end Folio

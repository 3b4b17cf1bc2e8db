import Folio.Attributes

/-!
# Substituting all attributes at once

Attributes are substituted one after another, each in the line as the earlier ones left it. If no
brace stands in a name or in a text, and no brace opens inside of a placeholder, **this is one
substitution of all attributes at once** (`Attributes.atOnce`), from left to right.

Both are told by three equations (`Substitutes`): a text without a closing brace stays as it is, so
does a character that opens no brace, and a placeholder becomes the text of its name, if there is
one. Only one function on such lines fulfils them (`Substitutes.eq`), and this settles all else:

* one substitution after another is a single one, in which the first has precedence
  (`Substitutes.comp`);
* so the order of the attributes does not count, and in the result nothing is left to be done;
* the placeholders of the result are those of the line that have no attribute
  (`Substitutes.slots_eq`).

Main result: `Attributes.substitute_eq_atOnce`.
-/

namespace Folio

namespace Attributes

/-! ## Placeholders -/

def Braceless (s : Text) : Prop := '{' ∉ s ∧ '}' ∉ s

instance (s : Text) : Decidable (Braceless s) := inferInstanceAs (Decidable (_ ∧ _))

/-- The name of the placeholder that a brace in front of this text begins, if there is one. -/
def name? (s : Text) : Option Text :=
  let name := s.takeWhile (· ≠ '}')
  if '}' ∈ s ∧ '{' ∉ name then some name else none

/-- The names of the placeholders in a text, from left to right. -/
def slots : Text → List Text
  | [] => []
  | c :: s => (if c = '{' then (name? s).toList else []) ++ slots s

attribute [local simp] slots

theorem placeholder_append (name s : Text) : placeholder name ++ s = '{' :: (name ++ '}' :: s) := by
  simp [placeholder]

theorem takeWhile_append_close {name : Text} (h : '}' ∉ name) (s : Text) :
    (name ++ '}' :: s).takeWhile (· ≠ '}') = name := by
  have hrun : ∀ c ∈ name, decide (c ≠ '}') = true := by
    intro c hc
    rw [decide_eq_true_iff]
    exact fun heq => h (heq ▸ hc)
  rw [List.takeWhile_append_of_pos hrun, List.takeWhile_cons_of_neg (by decide), List.append_nil]

theorem name?_eq_some_iff {s name : Text} :
    name? s = some name ↔ Braceless name ∧ ∃ rest, s = name ++ '}' :: rest := by
  rw [name?]
  constructor
  · intro h
    split at h
    · next hbraces =>
        obtain ⟨front, rest, rfl, hfront⟩ := List.eq_append_cons_of_mem hbraces.1
        rw [takeWhile_append_close hfront] at h hbraces
        obtain rfl := Option.some.inj h
        exact ⟨⟨hbraces.2, hfront⟩, rest, rfl⟩
    · exact absurd h (by simp)
  · rintro ⟨hname, rest, rfl⟩
    rw [takeWhile_append_close hname.2]
    exact if_pos ⟨by simp, hname.1⟩

theorem name?_append {name : Text} (h : Braceless name) (s : Text) :
    name? (name ++ '}' :: s) = some name :=
  name?_eq_some_iff.2 ⟨h, s, rfl⟩

theorem placeholder_prefix_iff {name : Text} (h : Braceless name) {c : Char} {s : Text} :
    placeholder name <+: c :: s ↔ c = '{' ∧ name? s = some name := by
  constructor
  · rintro ⟨rest, hrest⟩
    rw [placeholder_append, List.cons.injEq] at hrest
    exact ⟨hrest.1.symm, hrest.2 ▸ name?_append h rest⟩
  · rintro ⟨rfl, hname⟩
    obtain ⟨-, rest, rfl⟩ := name?_eq_some_iff.1 hname
    rw [← placeholder_append]
    exact List.prefix_append _ _

/-- **The placeholders of a text** are those that stand in it. -/
theorem mem_slots_iff {name s : Text} (h : Braceless name) :
    name ∈ slots s ↔ placeholder name <:+: s := by
  induction s with
  | nil => simp [slots, placeholder]
  | cons c s ih =>
      have hhere : name ∈ (if c = '{' then (name? s).toList else []) ↔
          placeholder name <+: c :: s := by
        rw [placeholder_prefix_iff h]
        split <;> simp [*, eq_comm]
      rw [slots, List.mem_append, ih, hhere, List.infix_cons_iff]

theorem slots_append {t : Text} (ht : '{' ∉ t) (s : Text) : slots (t ++ s) = slots s := by
  induction t with
  | nil => rfl
  | cons c t ih =>
      rw [List.mem_cons, not_or] at ht
      rw [List.cons_append, slots, if_neg (Ne.symm ht.1), List.nil_append, ih ht.2]

theorem slots_of_not_mem {s : Text} (hs : '}' ∉ s) : slots s = [] := by
  induction s with
  | nil => rfl
  | cons c s ih =>
      rw [List.mem_cons, not_or] at hs
      have hname : name? s = none := if_neg fun h => hs.2 h.1
      rw [slots, hname, ih hs.2]
      simp

theorem slots_placeholder_append {name : Text} (h : Braceless name) (s : Text) :
    slots (placeholder name ++ s) = name :: slots s := by
  have hrest : slots (name ++ '}' :: s) = slots s :=
    (slots_append h.1 _).trans (slots_append (t := ['}']) (by decide) s)
  rw [placeholder_append, slots, if_pos rfl, name?_append h, hrest]
  rfl

/-! ## Lines without braces in braces -/

/-- No brace opens between one that opens and the next one that closes. -/
def Unnested (line : Text) : Prop :=
  ∀ before inner after, line = before ++ '{' :: inner ++ '}' :: after → '}' ∉ inner → '{' ∉ inner

/-- A line by its parts: placeholders, characters that open no brace, and what comes behind the last
brace that closes. -/
inductive Flat : Text → Prop where
  | rest {s : Text} (hs : '}' ∉ s) : Flat s
  | keep {c : Char} {s : Text} (hc : c ≠ '{') (hs : Flat s) : Flat (c :: s)
  | slot {name s : Text} (hname : Braceless name) (hs : Flat s) : Flat (placeholder name ++ s)

theorem Unnested.of_append {t line : Text} (h : Unnested (t ++ line)) : Unnested line := by
  intro before inner after heq hinner
  exact h (t ++ before) inner after (by simp [heq]) hinner

theorem unnested_cons_iff {c : Char} {s : Text} :
    Unnested (c :: s) ↔ (c = '{' → '}' ∈ s → (name? s).isSome = true) ∧ Unnested s := by
  constructor
  · refine fun h => ⟨?_, Unnested.of_append (t := [c]) h⟩
    rintro rfl hclose
    obtain ⟨name, rest, rfl, hname⟩ := List.eq_append_cons_of_mem hclose
    exact Option.isSome_of_eq_some (name?_append ⟨h [] name rest rfl hname, hname⟩ rest)
  · rintro ⟨hhere, hs⟩ before inner after heq hinner
    cases before with
    | nil =>
        have hparts : c = '{' ∧ s = inner ++ '}' :: after := by simpa using heq
        obtain ⟨rfl, rfl⟩ := hparts
        obtain ⟨name, hsome⟩ := Option.isSome_iff_exists.1 (hhere rfl (by simp))
        obtain ⟨hname, rest, hrest⟩ := name?_eq_some_iff.1 hsome
        have hnames := congrArg (List.takeWhile (· ≠ '}')) hrest
        rw [takeWhile_append_close hinner, takeWhile_append_close hname.2] at hnames
        exact hnames ▸ hname.1
    | cons d before => exact hs before inner after (List.cons.inj heq).2 hinner

instance decidableUnnested : (line : Text) → Decidable (Unnested line)
  | [] => .isTrue fun before inner after heq => by simp at heq
  | c :: s =>
      have := decidableUnnested s
      decidable_of_iff _ unnested_cons_iff.symm

theorem Unnested.flat {line : Text} (h : Unnested line) : Flat line := by
  -- The induction is on the length, for a placeholder is taken off as a whole.
  induction hk : line.length using Nat.strongRecOn generalizing line with
  | _ k ih =>
    cases line with
    | nil => exact .rest List.not_mem_nil
    | cons c s =>
        obtain ⟨hhere, hs⟩ := unnested_cons_iff.1 h
        rw [List.length_cons] at hk
        by_cases hc : c = '{'
        · subst hc
          by_cases hclose : '}' ∈ s
          · obtain ⟨name, hsome⟩ := Option.isSome_iff_exists.1 (hhere rfl hclose)
            obtain ⟨hname, rest, rfl⟩ := name?_eq_some_iff.1 hsome
            have hrest : Unnested rest := by
              rw [List.append_cons] at hs
              exact hs.of_append
            rw [← placeholder_append]
            exact .slot hname (ih rest.length (by simp at hk; omega) hrest rfl)
          · -- The brace stays open.
            exact .rest (by simp [hclose])
        · exact .keep hc (ih s.length (by omega) hs rfl)

/-! ## Three equations -/

/-- The function puts texts in the place of placeholders that have one, and leaves all else. -/
structure Substitutes (text? : Text → Option Text) (f : Text → Text) : Prop where
  rest : ∀ {s}, '}' ∉ s → f s = s
  keep : ∀ {c} s, c ≠ '{' → f (c :: s) = c :: f s
  slot : ∀ {name} s, Braceless name →
    f (placeholder name ++ s) = (text? name).getD (placeholder name) ++ f s

theorem append_of_keep {f : Text → Text} (hkeep : ∀ {c} s, c ≠ '{' → f (c :: s) = c :: f s)
    {t : Text} (ht : '{' ∉ t) (s : Text) : f (t ++ s) = t ++ f s := by
  induction t with
  | nil => rfl
  | cons c t ih =>
      rw [List.mem_cons, not_or] at ht
      rw [List.cons_append, hkeep _ (Ne.symm ht.1), ih ht.2]
      rfl

namespace Substitutes

variable {text? text?' : Text → Option Text} {f f' : Text → Text}

/-- **Only one function fulfils the equations** on lines without braces in braces. -/
theorem eq (h : Substitutes text? f) (h' : Substitutes text? f') {line : Text} (hline : Flat line) :
    f line = f' line := by
  induction hline with
  | rest hs => rw [h.rest hs, h'.rest hs]
  | keep hc _ ih => rw [h.keep _ hc, h'.keep _ hc, ih]
  | slot hname _ ih => rw [h.slot _ hname, h'.slot _ hname, ih]

/-- **One substitution after another is a single one**, in which the first has precedence. -/
theorem comp (h : Substitutes text? f) (h' : Substitutes text?' f')
    (htext : ∀ name text, text? name = some text → Braceless text) :
    Substitutes (fun name => (text? name).or (text?' name)) (f' ∘ f) where
  rest hs := by rw [Function.comp_apply, h.rest hs, h'.rest hs]
  keep s hc := by rw [Function.comp_apply, h.keep s hc, h'.keep _ hc, Function.comp_apply]
  slot := by
    intro name s hname
    rw [Function.comp_apply, h.slot s hname]
    cases hfirst : text? name with
    | none => exact h'.slot (f s) hname
    | some text => exact append_of_keep h'.keep (htext name text hfirst).1 (f s)

theorem congr (h : Substitutes text? f) (heq : ∀ name, text? name = text?' name) :
    Substitutes text?' f := funext heq ▸ h

/-- **The placeholders that are left** are those without a text. -/
theorem slots_eq (h : Substitutes text? f)
    (htext : ∀ name text, text? name = some text → Braceless text) {line : Text}
    (hline : Flat line) :
    slots (f line) = (slots line).filter fun name => (text? name).isNone := by
  induction hline with
  | rest hs =>
      rw [h.rest hs, slots_of_not_mem hs]
      rfl
  | keep hc _ ih =>
      rw [h.keep _ hc, slots, if_neg hc, List.nil_append, slots, if_neg hc, List.nil_append, ih]
  | slot hname _ ih =>
      rw [h.slot _ hname, slots_placeholder_append hname, List.filter_cons]
      cases hsome : text? _ with
      | none =>
          rw [Option.getD_none, slots_placeholder_append hname, ih]
          rfl
      | some text =>
          rw [Option.getD_some, slots_append (htext _ text hsome).1, ih]
          rfl

end Substitutes

/-! ## All attributes at once -/

/-- Puts the texts of some attributes in the place of their placeholders, from left to right; the
second argument counts the characters still to be skipped because they belong to the placeholder
replaced last. -/
def atOnceFrom (es : List (Text × Text)) : Nat → Text → Text
  | _, [] => []
  | skip + 1, _ :: s => atOnceFrom es skip s
  | 0, c :: s =>
      match es.find? fun e => (placeholder e.1).isPrefixOf (c :: s) with
      | some e => e.2 ++ atOnceFrom es ((placeholder e.1).length - 1) s
      | none => c :: atOnceFrom es 0 s

/-- The line with the texts of the attributes in place of their placeholders, all at once. -/
def atOnce (a : Attributes) (line : Text) : Text := atOnceFrom a.entries 0 line

variable {es : List (Text × Text)}

theorem atOnceFrom_drop (es : List (Text × Text)) (skip : Nat) (s : Text) :
    atOnceFrom es skip s = atOnceFrom es 0 (s.drop skip) := by
  induction skip generalizing s with
  | zero => rfl
  | succ skip ih =>
      cases s with
      | nil => rfl
      | cons c s => exact ih s

theorem atOnceFrom_of_none {c : Char} {s : Text}
    (h : ∀ e ∈ es, ¬ placeholder e.1 <+: c :: s) :
    atOnceFrom es 0 (c :: s) = c :: atOnceFrom es 0 s := by
  have hnone : es.find? (fun e => (placeholder e.1).isPrefixOf (c :: s)) = none :=
    List.find?_eq_none.2 fun e he => by simpa using h e he
  rw [atOnceFrom, hnone]

theorem atOnceFrom_keep {c : Char} (s : Text) (hc : c ≠ '{') :
    atOnceFrom es 0 (c :: s) = c :: atOnceFrom es 0 s :=
  atOnceFrom_of_none fun _ _ hstart => hc (List.cons_prefix_cons.1 hstart).1.symm

/-- Where a placeholder stands, there is no other. -/
theorem find?_placeholder (hes : ∀ e ∈ es, Braceless e.1) {name : Text} (h : Braceless name)
    (s : Text) :
    es.find? (fun e => (placeholder e.1).isPrefixOf (placeholder name ++ s)) =
      (Entries.get? name es).map fun text => (name, text) := by
  induction es with
  | nil => rfl
  | cons e es ih =>
      rw [List.forall_mem_cons] at hes
      have hhere : placeholder e.1 <+: placeholder name ++ s ↔ e.1 = name := by
        rw [placeholder_append, placeholder_prefix_iff hes.1, name?_append h, Option.some.injEq]
        exact (and_iff_right rfl).trans eq_comm
      rw [List.find?_cons, Entries.get?]
      by_cases hname : e.1 = name
      · rw [if_pos hname, List.isPrefixOf_iff_prefix.2 (hhere.2 hname)]
        exact congrArg some (Prod.ext hname rfl)
      · rw [if_neg hname, Bool.eq_false_iff.2 (mt List.isPrefixOf_iff_prefix.1 (mt hhere.1 hname))]
        exact ih hes.2

theorem atOnceFrom_placeholder (hes : ∀ e ∈ es, Braceless e.1) {name : Text} (h : Braceless name)
    (s : Text) :
    atOnceFrom es 0 (placeholder name ++ s) =
      (Entries.get? name es).getD (placeholder name) ++ atOnceFrom es 0 s := by
  have hfind := find?_placeholder hes h s
  rw [placeholder_append] at hfind ⊢
  rw [atOnceFrom, hfind]
  cases hget : Entries.get? name es with
  | some text =>
      have hdrop : (name ++ '}' :: s).drop ((placeholder name).length - 1) = s := by
        simp [placeholder, List.drop_append]
      simp only [Option.map_some, Option.getD_some]
      rw [atOnceFrom_drop, hdrop]
  | none =>
      simp only [Option.map_none, Option.getD_none]
      rw [append_of_keep atOnceFrom_keep h.1, atOnceFrom_keep _ (by decide), placeholder_append]

theorem substitutes_atOnceFrom (hes : ∀ e ∈ es, Braceless e.1) :
    Substitutes (Entries.get? · es) (atOnceFrom es 0) where
  rest := by
    intro s hs
    induction s with
    | nil => rfl
    | cons c s ih =>
        have hnone : ∀ e ∈ es, ¬ placeholder e.1 <+: c :: s := fun e _ hstart =>
          hs (hstart.subset (by simp [placeholder]))
        rw [List.mem_cons, not_or] at hs
        rw [atOnceFrom_of_none hnone, ih hs.2]
  keep := atOnceFrom_keep
  slot s hname := atOnceFrom_placeholder hes hname s

/-! ## One attribute after another -/

theorem replaceFrom_eq_atOnceFrom (e : Text × Text) (skip : Nat) (s : Text) :
    Text.replaceFrom (placeholder e.1) e.2 skip s = atOnceFrom [e] skip s := by
  induction s generalizing skip with
  | nil => cases skip <;> rfl
  | cons c s ih =>
      cases skip with
      | succ skip => exact ih skip
      | zero =>
          rw [Text.replaceFrom, atOnceFrom, List.find?_singleton]
          split <;> simp [ih]

/-- The attributes have neither names nor texts with braces. -/
def Plain (es : List (Text × Text)) : Prop := ∀ e ∈ es, Braceless e.1 ∧ Braceless e.2

theorem Plain.get? (hes : Plain es) {name text : Text} (h : Entries.get? name es = some text) :
    Braceless text := by
  induction es with
  | nil => cases h
  | cons e es ih =>
      rw [Plain, List.forall_mem_cons] at hes
      rw [Entries.get?] at h
      split at h
      · exact Option.some.inj h ▸ hes.1.2
      · exact ih hes.2 h

theorem substitutes_substituteAll (hes : Plain es) :
    Substitutes (Entries.get? · es) (substituteAll es) := by
  induction es with
  | nil => exact ⟨fun _ => rfl, fun _ _ => rfl, fun _ _ => rfl⟩
  | cons e es ih =>
      rw [Plain, List.forall_mem_cons] at hes
      have hone : Plain [e] := List.forall_mem_singleton.2 hes.1
      have hfirst : Substitutes (Entries.get? · [e]) (Text.replaceAll (placeholder e.1) e.2) := by
        have heq : Text.replaceAll (placeholder e.1) e.2 = atOnceFrom [e] 0 :=
          funext (replaceFrom_eq_atOnceFrom e 0)
        rw [heq]
        exact substitutes_atOnceFrom fun e he => (hone e he).1
      refine (hfirst.comp (ih hes.2) fun _ _ h => hone.get? h).congr fun name => ?_
      simp only [Entries.get?]
      split <;> rfl

/-- **Attributes are substituted all at once.** If no brace stands in a name or in a text, and none
opens inside of a placeholder, then substituting one attribute after another is one substitution
from left to right. So the order of the attributes does not count, a second substitution changes
nothing, and of the placeholders of the line just those are left that have no attribute. -/
theorem substitute_eq_atOnce (a : Attributes) (line : Text)
    (hplain : ∀ e ∈ a.entries, Braceless e.1 ∧ Braceless e.2) (hline : Unnested line) :
    a.substitute line = a.atOnce line ∧
    (∀ a' : Attributes, a'.entries.Perm a.entries → a'.substitute line = a.substitute line) ∧
    a.substitute (a.substitute line) = a.substitute line ∧
    (∀ name ∈ a.keys, ¬ placeholder name <:+: a.substitute line) ∧
    slots (a.substitute line) = (slots line).filter fun name => !a.contains name := by
  have hall : Substitutes a.get? a.substitute := substitutes_substituteAll hplain
  have htext : ∀ name text, a.get? name = some text → Braceless text := fun _ _ => Plain.get? hplain
  have hslots : slots (a.substitute line) = (slots line).filter fun name => !a.contains name := by
    rw [hall.slots_eq htext hline.flat]
    simp [OrderedMap.contains]
  refine ⟨?_, ?_, ?_, ?_, hslots⟩
  · exact hall.eq (substitutes_atOnceFrom fun e he => (hplain e he).1) hline.flat
  · intro a' hperm
    have hall' : Substitutes a'.get? a'.substitute :=
      substitutes_substituteAll fun e he => hplain e (hperm.mem_iff.1 he)
    refine (hall'.congr fun name => Option.ext fun text => ?_).eq hall hline.flat
    rw [OrderedMap.get?_eq_some_iff, OrderedMap.get?_eq_some_iff, hperm.mem_iff]
  · -- two substitutions of the same attributes are one
    have htwice := (hall.comp hall htext).congr fun name => Option.or_self
    exact htwice.eq hall hline.flat
  · intro name hname hleft
    obtain ⟨e, he, rfl⟩ := List.mem_map.1 hname
    rw [← mem_slots_iff (hplain e he).1, hslots, List.mem_filter] at hleft
    have hthere : a.contains e.1 = true := OrderedMap.contains_iff.2 hname
    simp [hthere] at hleft

theorem substitute_eq_atOnce_pair :
    let a : Attributes := .ofList [("b".toList, "x".toList), ("a".toList, "b".toList)]
    let a' : Attributes := .ofList [("a".toList, "b".toList), ("b".toList, "x".toList)]
    let slot (name : String) := placeholder name.toList
    let line := '}' :: slot "a" ++ slot "c" ++ slot "b" ++ [' ', '{']
    ((∀ e ∈ a.entries, Braceless e.1 ∧ Braceless e.2) ∧ Unnested line ∧
      a'.entries.Perm a.entries) ∧
    a.substitute line = '}' :: "b".toList ++ slot "c" ++ "x".toList ++ [' ', '{'] ∧
    a.substitute line = a.atOnce line ∧ a'.substitute line = a.substitute line ∧
    slots (a.substitute line) = ["c".toList] := by
  intro a a' slot line
  have h : (∀ e ∈ a.entries, Braceless e.1 ∧ Braceless e.2) ∧ Unnested line ∧
      a'.entries.Perm a.entries := by
    decide +kernel
  obtain ⟨hplain, hline, hperm⟩ := h
  obtain ⟨hatOnce, horder, -, -, hslots⟩ := substitute_eq_atOnce a line hplain hline
  exact ⟨⟨hplain, hline, hperm⟩, by decide +kernel, hatOnce, horder a' hperm,
    hslots.trans (by decide +kernel)⟩

/-- Where a placeholder stands in another one, the order counts. -/
example :
    let a : Attributes := .ofList [("b".toList, "x".toList), ("ax".toList, "y".toList)]
    let line := placeholder ("a".toList ++ placeholder "b".toList)
    a.substitute line = "y".toList ∧ a.atOnce line = placeholder "ax".toList := by
  decide +kernel

end Attributes

end Folio

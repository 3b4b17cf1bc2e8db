import Folio.Value

/-!
# The order of a set

A set keeps its members in a table, and shows them in the order of the table. Each member has a code
of 64 bits, and its place is the remainder of the code by the size of the table, unless an earlier
member is there: then other places are tried, which the code decides too. The table has more places
than twice the members, or eight places for up to four members.

Equal numbers have the same code: integers count modulo `2 ^ 61 - 1`, and as two has an inverse
there, so do all finite numbers. Rows mix the codes of their parts. Nothing, days, moments and texts
that are not empty have no code, and **a set with such a member keeps the order in which its members
came**. Elsewhere such members have codes too, but others in every run, so no order of theirs can be
relied upon. It shows only in the text of a whole set.

* `Value.code?` is the code of a value.
* `Value.arrange` puts the members of a set in order.

Main result: `arrange_perm`, a set has the same members in another order.
-/

namespace Folio

namespace Value

/-! ## Codes -/

/-- The modulus of the codes of numbers. -/
def modulus : Nat := Nat.pow 2 61 - 1

/-- The code of a number with a sign and a residue. The opposite of one shares that of two. -/
def signedCode (negative : Bool) (residue : Nat) : UInt64 :=
  if negative then (if residue = 1 then 0 - 2 else 0 - UInt64.ofNat residue)
  else UInt64.ofNat residue

/-- The code of an infinite number, but for its sign. -/
def infiniteResidue : Nat := 314159

/-- The code of an atom, if it has one. -/
def atomCode? : Atom → Option UInt64
  | .bool b => some (if b then 1 else 0)
  | .int i => some (signedCode (decide (i < 0)) (i.natAbs % modulus))
  | .number (.finite negative m q) _ =>
      some (signedCode negative (m * Nat.pow 2 (q % 61).toNat % modulus))
  | .number (.infinite negative) _ => some (signedCode negative infiniteResidue)
  | .text [] | .bytes [] => some 0
  | .null | .number .nan _ | .text _ | .bytes _ | .day _ | .moment _ _ _ => none

/-- What the mixing of codes begins with. -/
def seed : UInt64 := 2870177450012600261

def mix (mixed code : UInt64) : UInt64 :=
  let x := mixed + code * 14029467366897019727
  (x <<< 31 ||| x >>> 33) * 11400714785074694791

/-- The code of a row whose parts have these codes. -/
def rowCode (codes : List UInt64) : UInt64 :=
  let code := codes.foldl mix seed + (UInt64.ofNat codes.length ^^^ seed ^^^ 3527539)
  if code = 0 - 1 then 1546275796 else code

mutual

/-- The code of a value, if it has one. -/
def code? : Value → Option UInt64
  | atom a => atomCode? a
  | row items => (codes? items).map rowCode
  | shared _ => none

/-- The codes of some values, if they all have one. -/
def codes? : List Value → Option (List UInt64)
  | [] => some []
  | v :: vs =>
      match code? v, codes? vs with
      | some code, some codes => some (code :: codes)
      | _, _ => none

end

/-! ## Places -/

/-- The number of places in the table for some number of members. -/
def tableSize (members : Nat) : Nat :=
  if members < 5 then 8 else Nat.pow 2 (Nat.log2 (2 * members) + 1)

/-- The places that are tried one after another: a place with nine neighbours, unless the table ends
before, and then another such place, and so on. The second argument bounds their number, and the
last one is what is left of the code. -/
def tried (size : Nat) : Nat → Nat → Nat → List Nat
  | 0, _, _ => []
  | n + 1, place, code =>
      (if place + 9 < size then List.range' place 10 else [place]) ++
        tried size n ((5 * place + 1 + code / 32) % size) (code / 32)

/-- The place of a code in a table where some places are taken. After thirteen turns nothing is left
of the code, and from then on the turns reach all places. -/
def place (size : Nat) (taken : List Nat) (code : Nat) : Nat :=
  ((tried size (size + 13) (code % size) code).find? fun p => !taken.contains p).getD 0

/-- The places of codes that come one after another, where some places are taken. -/
def places (size : Nat) : List Nat → List UInt64 → List Nat
  | _, [] => []
  | taken, code :: codes =>
      let p := place size taken code.toNat
      p :: places size (p :: taken) codes

theorem length_places (size : Nat) (taken : List Nat) (codes : List UInt64) :
    (places size taken codes).length = codes.length := by
  induction codes generalizing taken with
  | nil => rfl
  | cons code codes ih => simp [places, ih]

theorem length_of_codes? {vs : List Value} {codes : List UInt64} (h : codes? vs = some codes) :
    codes.length = vs.length := by
  induction vs generalizing codes with
  | nil => simp_all [codes?]
  | cons v vs ih =>
    unfold codes? at h
    split at h
    · rename_i code rest _ hrest
      obtain rfl := Option.some.inj h
      simp [ih hrest]
    · simp at h

/-! ## The order -/

/-- The members of a set, which came one after another, in the order of their places. -/
def arrange (members : List Value) : List Value :=
  match codes? members with
  | none => members
  | some codes =>
      let numbered := (places (tableSize members.length) [] codes).zip members
      (numbered.mergeSort fun a b => a.1 ≤ b.1).map Prod.snd

theorem arrange_perm (members : List Value) : (arrange members).Perm members := by
  unfold arrange
  split
  · exact .refl _
  · rename_i codes h
    have hl : members.length ≤ (places (tableSize members.length) [] codes).length :=
      Nat.le_of_eq ((length_places _ _ _).trans (length_of_codes? h)).symm
    simpa [List.map_snd_zip hl] using
      (List.mergeSort_perm ((places (tableSize members.length) [] codes).zip members)
        (fun a b => decide (a.1 ≤ b.1))).map Prod.snd

end Value

end Folio

/-!
# Ordered maps

Attributes, and the targets of source documents, are finite maps whose order is visible: attributes
are substituted one after another, and documents are written one after another. An ordered map is
a list of entries with different keys. **A key keeps its first position and has its last value.**

Main results: `get?_insert` says what a look-up finds after an insertion, `keys_insert` where a key
ends up, and `get?_filter` what is left after a removal.
-/

namespace Folio

/-! ## Entries -/

namespace Entries

variable {α β : Type} [DecidableEq α]

/-- The value at the first entry with this key. -/
def get? (k : α) : List (α × β) → Option β
  | [] => none
  | e :: es => if e.1 = k then some e.2 else get? k es

/-- Gives the key its new value, in its old place or, if it is new, at the end. -/
def insert (k : α) (v : β) : List (α × β) → List (α × β)
  | [] => [(k, v)]
  | e :: es => if e.1 = k then (k, v) :: es else e :: insert k v es

attribute [local simp] get? insert

theorem mem_keys_insert {k : α} {v : β} {es : List (α × β)} {a : α} :
    a ∈ (insert k v es).map Prod.fst ↔ a = k ∨ a ∈ es.map Prod.fst := by
  induction es with
  | nil => simp [insert]
  | cons e es ih =>
      by_cases h : e.1 = k
      · simp [insert, h]
      · simp only [insert, h, if_false, List.map_cons, List.mem_cons, ih]
        grind

theorem nodup_insert {k : α} {v : β} {es : List (α × β)} (h : (es.map Prod.fst).Nodup) :
    ((insert k v es).map Prod.fst).Nodup := by
  induction es with
  | nil => simp [insert]
  | cons e es ih =>
      simp only [List.map_cons, List.nodup_cons] at h
      by_cases hk : e.1 = k
      · subst hk
        simpa [insert] using h
      · simp only [insert, hk, if_false, List.map_cons, List.nodup_cons, mem_keys_insert]
        exact ⟨by simpa [hk] using h.1, ih h.2⟩

theorem get?_insert (k : α) (v : β) (es : List (α × β)) (a : α) :
    get? a (insert k v es) = if a = k then some v else get? a es := by
  induction es with
  | nil => simp [insert, get?, eq_comm]
  | cons e es ih =>
      by_cases hk : e.1 = k
      · subst hk
        by_cases ha : a = e.1
        · simp [insert, get?, ha]
        · simp [insert, get?, ha, Ne.symm ha]
      · by_cases ha : a = k
        · subst ha
          simp [insert, get?, hk, ih]
        · simp only [insert, hk, if_false, get?, ih, ha]

theorem keys_insert (k : α) (v : β) (es : List (α × β)) :
    (insert k v es).map Prod.fst =
      if (get? k es).isSome then es.map Prod.fst else es.map Prod.fst ++ [k] := by
  induction es with
  | nil => simp [insert, get?]
  | cons e es ih =>
      by_cases hk : e.1 = k
      · simp [insert, get?, hk]
      · simp only [insert, get?, hk, if_false, List.map_cons, ih]
        split <;> rfl

theorem get?_isSome {k : α} {es : List (α × β)} : (get? k es).isSome ↔ k ∈ es.map Prod.fst := by
  induction es with
  | nil => simp [get?]
  | cons e es ih =>
      by_cases h : e.1 = k
      · simp [get?, h]
      · simp only [get?, h, if_false, ih, List.map_cons, List.mem_cons]
        grind

theorem get?_eq_some_iff {k : α} {v : β} {es : List (α × β)} (h : (es.map Prod.fst).Nodup) :
    get? k es = some v ↔ (k, v) ∈ es := by
  induction es with
  | nil => simp [get?]
  | cons e es ih =>
      rw [List.map_cons, List.nodup_cons] at h
      by_cases hk : e.1 = k
      · subst hk
        have hnot : (e.1, v) ∉ es := fun hmem => h.1 (List.mem_map.2 ⟨_, hmem, rfl⟩)
        simp [get?, hnot, Prod.ext_iff, eq_comm]
      · simp [get?, hk, ih h.2, Prod.ext_iff, Ne.symm hk]

theorem get?_filter (keep : α → Bool) (k : α) (es : List (α × β)) :
    get? k (es.filter fun e => keep e.1) = if keep k then get? k es else none := by
  induction es with
  | nil => simp [get?]
  | cons e es ih =>
      by_cases hp : keep e.1 = true
      · by_cases h : e.1 = k
        · subst h
          simp [List.filter, hp, get?]
        · simp only [List.filter, hp, get?, h, if_false, ih]
      · by_cases h : e.1 = k
        · subst h
          simp [List.filter, hp, ih]
        · simp only [List.filter, hp, get?, h, if_false, ih]

end Entries

/-! ## Maps -/

/-- A list of entries with different keys, in the order of the first insertions of their keys. -/
structure OrderedMap (α β : Type) where
  entries : List (α × β)
  nodup : (entries.map Prod.fst).Nodup

namespace OrderedMap

variable {α β : Type}

def empty : OrderedMap α β := ⟨[], List.nodup_nil⟩

instance : Inhabited (OrderedMap α β) := ⟨empty⟩

def keys (m : OrderedMap α β) : List α := m.entries.map Prod.fst

/-- The values, in the order of their keys. -/
def values (m : OrderedMap α β) : List β := m.entries.map Prod.snd

/-- The entries whose key passes the test. -/
def filter (keep : α → Bool) (m : OrderedMap α β) : OrderedMap α β where
  entries := m.entries.filter fun e => keep e.1
  nodup := m.nodup.sublist (List.filter_sublist.map _)

variable [DecidableEq α]

def get? (m : OrderedMap α β) (k : α) : Option β := Entries.get? k m.entries

/-- Whether the key has an entry. -/
def contains (m : OrderedMap α β) (k : α) : Bool := (m.get? k).isSome

/-- Gives a key its new value: in its old place or, if the key is new, at the end. -/
def insert (m : OrderedMap α β) (k : α) (v : β) : OrderedMap α β :=
  ⟨Entries.insert k v m.entries, Entries.nodup_insert m.nodup⟩

/-- Inserts the entries of a list, one after another. -/
def insertAll (m : OrderedMap α β) (es : List (α × β)) : OrderedMap α β :=
  es.foldl (fun m e => m.insert e.1 e.2) m

/-- The map of a list of entries, in which a key may come several times. -/
def ofList (es : List (α × β)) : OrderedMap α β := empty.insertAll es

/-! ## Look-ups and keys -/

@[simp] theorem get?_empty (a : α) : (empty : OrderedMap α β).get? a = none := rfl

theorem get?_insert (m : OrderedMap α β) (k : α) (v : β) (a : α) :
    (m.insert k v).get? a = if a = k then some v else m.get? a :=
  Entries.get?_insert k v m.entries a

theorem get?_isSome {m : OrderedMap α β} {k : α} : (m.get? k).isSome ↔ k ∈ m.keys :=
  Entries.get?_isSome

/-- The entries are what is found by look-ups. -/
theorem get?_eq_some_iff {m : OrderedMap α β} {k : α} {v : β} :
    m.get? k = some v ↔ (k, v) ∈ m.entries :=
  Entries.get?_eq_some_iff m.nodup

theorem get?_filter (keep : α → Bool) (m : OrderedMap α β) (k : α) :
    (m.filter keep).get? k = if keep k then m.get? k else none :=
  Entries.get?_filter keep k m.entries

theorem contains_iff {m : OrderedMap α β} {k : α} : m.contains k = true ↔ k ∈ m.keys :=
  get?_isSome

theorem keys_insert (m : OrderedMap α β) (k : α) (v : β) :
    (m.insert k v).keys = if m.contains k then m.keys else m.keys ++ [k] :=
  Entries.keys_insert k v m.entries

end OrderedMap

end Folio

/-!
# Maps in insertion order

A map is a list of entries in the order in which their keys were first inserted. Its view is `get?`.

- `get?_insert`: an insertion is seen at its own key and nowhere else;
- `keys_insert`: a new key goes to the end, a known one keeps its place;
- `mem_keys_of_get?`, `isSome_get?_of_mem_keys`: what has a value is a key, and a key has a value;
- `insertNew` leaves a known key alone, and `ofFirst` keeps the first value of each key.
-/

namespace SchemaTypings

/-- A map that lists its keys in the order of their first insertion. -/
structure OrderedMap (α β : Type) where
  entries : List (α × β)
  deriving DecidableEq, Repr

namespace OrderedMap

variable {α β : Type} [DecidableEq α]

/-- The map without entries. -/
def empty : OrderedMap α β := ⟨[]⟩

/-- The keys in insertion order. -/
def keys (m : OrderedMap α β) : List α := m.entries.map Prod.fst

/-- The value at a key. -/
def get? (m : OrderedMap α β) (k : α) : Option β := m.entries.lookup k

/-- Whether a key has a value. -/
def contains (m : OrderedMap α β) (k : α) : Bool := (m.get? k).isSome

/-- Sets the value of a key in a list of entries, at the place of the key or else at the end. -/
def insertEntry (k : α) (v : β) : List (α × β) → List (α × β)
  | [] => [(k, v)]
  | e :: es => if e.1 = k then (k, v) :: es else e :: insertEntry k v es

/-- Sets the value of a key. -/
def insert (m : OrderedMap α β) (k : α) (v : β) : OrderedMap α β := ⟨insertEntry k v m.entries⟩

/-- Sets the value of a key that has none. -/
def insertNew (m : OrderedMap α β) (k : α) (v : β) : OrderedMap α β := if m.contains k then m else m.insert k v

/-- The map in which each key has its last value. -/
def ofLast (es : List (α × β)) : OrderedMap α β := es.foldl (fun m e => m.insert e.1 e.2) empty

/-- The map in which each key has its first value. -/
def ofFirst (es : List (α × β)) : OrderedMap α β := es.foldl (fun m e => m.insertNew e.1 e.2) empty

/-! ## The view of an insertion -/

@[simp] theorem get?_empty (k : α) : (empty : OrderedMap α β).get? k = none := rfl

theorem lookup_insertEntry (k j : α) (v : β) :
    ∀ es : List (α × β), (insertEntry k v es).lookup j = if j = k then some v else es.lookup j
  | [] => by
    by_cases h : j = k
    · simp [insertEntry, h]
    · simp [insertEntry, List.lookup_cons, h, beq_eq_false_iff_ne.2 h]
  | (i, w) :: es => by
    have ih := lookup_insertEntry k j v es
    by_cases hi : i = k
    · subst hi
      by_cases h : j = i
      · simp [insertEntry, h]
      · simp [insertEntry, List.lookup_cons, h, beq_eq_false_iff_ne.2 h]
    · by_cases h : j = i
      · subst h
        simp [insertEntry, hi]
      · simp [insertEntry, List.lookup_cons, hi, beq_eq_false_iff_ne.2 h, ih]

/-- An insertion is seen at its key only. -/
@[simp] theorem get?_insert (m : OrderedMap α β) (k j : α) (v : β) :
    (m.insert k v).get? j = if j = k then some v else m.get? j :=
  lookup_insertEntry k j v m.entries

theorem map_fst_insertEntry (k : α) (v : β) :
    ∀ es : List (α × β),
      (insertEntry k v es).map Prod.fst = if k ∈ es.map Prod.fst then es.map Prod.fst else es.map Prod.fst ++ [k]
  | [] => by simp [insertEntry]
  | (i, w) :: es => by
    have ih := map_fst_insertEntry k v es
    by_cases hi : i = k
    · simp [insertEntry, hi]
    · have hk : ¬k = i := fun h => hi h.symm
      by_cases h : k ∈ es.map Prod.fst
      · simp only [insertEntry, hi, if_false, List.map_cons, ih, if_pos h]
        rw [if_pos (List.mem_cons_of_mem _ h)]
      · simp only [insertEntry, hi, if_false, List.map_cons, ih, if_neg h]
        rw [if_neg (by simpa [List.mem_cons, hk] using h)]
        rfl

/-- A new key goes to the end, a known one keeps its place. -/
theorem keys_insert (m : OrderedMap α β) (k : α) (v : β) :
    (m.insert k v).keys = if k ∈ m.keys then m.keys else m.keys ++ [k] :=
  map_fst_insertEntry k v m.entries

/-! ## Keys -/

theorem mem_map_fst_of_lookup {k : α} {v : β} : ∀ {es : List (α × β)}, es.lookup k = some v → k ∈ es.map Prod.fst
  | (i, w) :: es, h => by
    by_cases hk : k = i
    · simp [hk]
    · rw [List.lookup_cons, beq_eq_false_iff_ne.2 hk] at h
      exact List.mem_cons_of_mem _ (mem_map_fst_of_lookup h)

/-- What has a value is a key. -/
theorem mem_keys_of_get? {m : OrderedMap α β} {k : α} {v : β} (h : m.get? k = some v) : k ∈ m.keys :=
  mem_map_fst_of_lookup h

/-- Every key has a value. -/
theorem isSome_get?_of_mem_keys {m : OrderedMap α β} {k : α} (h : k ∈ m.keys) : (m.get? k).isSome := by
  obtain ⟨e, he, rfl⟩ := List.mem_map.1 h
  cases found : m.get? e.1 with
  | some v => rfl
  | none => simpa using List.lookup_eq_none_iff.1 found e he

end OrderedMap

end SchemaTypings

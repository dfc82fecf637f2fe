import Mathlib.Data.List.Nodup
import SchemaTypings.OrderedMap

/-!
# Tables made from lists of entries

What `OrderedMap.ofLast` and `OrderedMap.ofFirst` look up, and that no key is listed twice.

- `get?_ofLast`, `get?_ofFirst`: the last entry of a key counts, or the first one;
- `nodup_keys_ofFirst`, `mem_entries_iff`: entries and look-ups of a table say the same;
- `foldl_insert_eq_self`: insertions that leave a table as it is;
- `nodup_eraseDups`: a list without its repetitions.
-/

namespace SchemaTypings

/-! ## Lists without repetitions -/

theorem nodup_eraseDups {α : Type} [DecidableEq α] : ∀ xs : List α, xs.eraseDups.Nodup
  | [] => List.nodup_nil
  | x :: xs => by
    rw [List.eraseDups_cons, List.nodup_cons]
    refine ⟨?_, nodup_eraseDups _⟩
    rw [List.mem_eraseDups, List.mem_filter]
    simp
termination_by xs => xs.length
decreasing_by
  have := List.length_filter_le (fun b => !b == x) xs
  simp only [List.length_cons]
  omega

/-- A list without repetitions stays as it is. -/
theorem eraseDups_of_nodup {α : Type} [DecidableEq α] : ∀ {xs : List α}, xs.Nodup → xs.eraseDups = xs
  | [], _ => rfl
  | x :: xs, h => by
    have hx : ∀ y ∈ xs, (!y == x) = true := fun y hy => by
      have : y ≠ x := fun e => (List.nodup_cons.1 h).1 (e ▸ hy)
      simpa using this
    rw [List.eraseDups_cons, List.filter_eq_self.2 hx, eraseDups_of_nodup (List.nodup_cons.1 h).2]

/-- Repetitions may be dropped before or after a selection. -/
theorem filter_eraseDups {α : Type} [DecidableEq α] (p : α → Bool) :
    ∀ xs : List α, xs.eraseDups.filter p = (xs.filter p).eraseDups
  | [] => rfl
  | x :: xs => by
    have ih := filter_eraseDups p (xs.filter fun y => !y == x)
    rw [List.eraseDups_cons]
    by_cases hx : p x = true
    · rw [List.filter_cons_of_pos hx, List.filter_cons_of_pos hx, List.eraseDups_cons, ih]
      simp only [List.filter_filter, Bool.and_comm]
    · have others : (xs.filter fun y => !y == x).filter p = xs.filter p := by
        rw [List.filter_filter]
        refine List.filter_congr fun y _ => ?_
        by_cases hy : y = x
        · simp [hy, hx]
        · simp [hy]
      rw [List.filter_cons_of_neg hx, List.filter_cons_of_neg hx, ih, others]
termination_by xs => xs.length
decreasing_by
  have := List.length_filter_le (fun y => !y == x) xs
  simp only [List.length_cons]
  omega

/-- It does not matter whether repetitions are dropped before a function is applied as well. -/
theorem eraseDups_map_eraseDups {α β : Type} [DecidableEq α] [DecidableEq β] (f : α → β) :
    ∀ xs : List α, (xs.eraseDups.map f).eraseDups = (xs.map f).eraseDups
  | [] => rfl
  | x :: xs => by
    have others : (xs.filter fun y => !y == x).filter (fun y => !f y == f x) = xs.filter fun y => !f y == f x := by
      rw [List.filter_filter]
      refine List.filter_congr fun y _ => ?_
      by_cases hy : y = x <;> simp [hy]
    have ih := eraseDups_map_eraseDups f (xs.filter fun y => !f y == f x)
    rw [List.eraseDups_cons, List.map_cons, List.map_cons, List.eraseDups_cons, List.eraseDups_cons, List.filter_map,
      List.filter_map, filter_eraseDups]
    simp only [Function.comp_def, others, ih]
termination_by xs => xs.length
decreasing_by
  have := List.length_filter_le (fun y => !f y == f x) xs
  simp only [List.length_cons]
  omega

/-- An injective function keeps repetitions apart. -/
theorem eraseDups_map_of_injective {α β : Type} [DecidableEq α] [DecidableEq β] {f : α → β}
    (injective : Function.Injective f) (xs : List α) : (xs.map f).eraseDups = xs.eraseDups.map f := by
  rw [← eraseDups_map_eraseDups, eraseDups_of_nodup ((nodup_eraseDups xs).map injective)]

/-- Where distinct keys are repeated one after another, those that are there at all remain. -/
theorem eraseDups_flatMap_replicate {α β : Type} [DecidableEq β] {key : α → β} (times : α → Nat) :
    ∀ {xs : List α}, (xs.map key).Nodup →
      (xs.flatMap fun x => List.replicate (times x) (key x)).eraseDups = (xs.filter fun x => 0 < times x).map key
  | [], _ => rfl
  | x :: xs, h => by
    obtain ⟨new, nodup⟩ := List.nodup_cons.1 h
    have ih := eraseDups_flatMap_replicate times nodup
    rw [List.flatMap_cons]
    cases ht : times x with
    | zero => rw [List.replicate_zero, List.nil_append, ih, List.filter_cons_of_neg (by simp [ht])]
    | succ k =>
      have others : ∀ y ∈ xs.flatMap fun x => List.replicate (times x) (key x), (!y == key x) = true := by
        intro y hy
        obtain ⟨x', hx', hy⟩ := List.mem_flatMap.1 hy
        obtain rfl := List.eq_of_mem_replicate hy
        have : key x' ≠ key x := fun e => new (e ▸ List.mem_map_of_mem hx')
        simpa using this
      rw [List.replicate_succ, List.cons_append, List.eraseDups_cons, List.filter_append, List.filter_eq_self.2 others,
        List.filter_cons_of_pos (by simp [ht]), List.map_cons, ← ih]
      simp

/-- A key that occurs once has the value of its entry. -/
theorem lookup_of_mem {α β : Type} [DecidableEq α] {k : α} {v : β} :
    ∀ {es : List (α × β)}, (es.map Prod.fst).Nodup → (k, v) ∈ es → es.lookup k = some v
  | (j, w) :: es, hn, h => by
    rw [List.map_cons, List.nodup_cons] at hn
    rcases List.mem_cons.1 h with h | h
    · cases h
      exact List.lookup_cons_self
    · have hk : k ≠ j := fun e => hn.1 (List.mem_map.2 ⟨(k, v), h, e⟩)
      rw [List.lookup_cons, beq_eq_false_iff_ne.2 hk]
      exact lookup_of_mem hn.2 h

theorem mem_of_lookup {α β : Type} [DecidableEq α] {k : α} {v : β} :
    ∀ {es : List (α × β)}, es.lookup k = some v → (k, v) ∈ es
  | (j, w) :: es, h => by
    by_cases hk : k = j
    · subst hk
      rw [List.lookup_cons_self] at h
      cases h
      exact List.mem_cons_self
    · rw [List.lookup_cons, beq_eq_false_iff_ne.2 hk] at h
      exact List.mem_cons_of_mem _ (mem_of_lookup h)

/-- Where keys are distinct, the order of the entries does not matter. -/
theorem lookup_perm {α β : Type} [DecidableEq α] {es es' : List (α × β)} (perm : es'.Perm es)
    (distinct : (es.map Prod.fst).Nodup) (k : α) : es'.lookup k = es.lookup k := by
  have distinct' : (es'.map Prod.fst).Nodup := (perm.map Prod.fst).nodup_iff.2 distinct
  refine Option.ext fun v => ⟨fun h => ?_, fun h => ?_⟩
  · exact lookup_of_mem distinct (perm.mem_iff.1 (mem_of_lookup h))
  · exact lookup_of_mem distinct' (perm.mem_iff.2 (mem_of_lookup h))

/-- A key with an entry has a value. -/
theorem exists_lookup_of_mem {α β : Type} [DecidableEq α] {k : α} {v : β} :
    ∀ {es : List (α × β)}, (k, v) ∈ es → ∃ w, es.lookup k = some w
  | (j, w) :: es, h => by
    by_cases hk : k = j
    · exact ⟨w, by rw [hk, List.lookup_cons_self]⟩
    · rw [List.lookup_cons, beq_eq_false_iff_ne.2 hk]
      rcases List.mem_cons.1 h with h | h
      · cases h
        exact absurd rfl hk
      · exact exists_lookup_of_mem h

namespace OrderedMap

variable {α β : Type} [DecidableEq α]

/-! ## Tables in which the last entry counts -/

theorem get?_foldl_insert (k : α) : ∀ (es : List (α × β)) (m : OrderedMap α β),
    (es.foldl (fun m e => m.insert e.1 e.2) m).get? k = (es.reverse.lookup k).or (m.get? k)
  | [], m => rfl
  | (j, v) :: es, m => by
    rw [List.foldl_cons, get?_foldl_insert k es, get?_insert, List.reverse_cons, List.lookup_append, Option.or_assoc]
    congr 1
    by_cases h : k = j
    · simp [h]
    · simp [h, List.lookup_cons, beq_eq_false_iff_ne.2 h]

theorem get?_ofLast (es : List (α × β)) (k : α) : (ofLast es).get? k = es.reverse.lookup k := by
  rw [ofLast, get?_foldl_insert, get?_empty, Option.or_none]

theorem get?_ofLast_cons (k : α) (v : β) (es : List (α × β)) (j : α) :
    (ofLast ((k, v) :: es)).get? j = ((ofLast es).get? j).or (if j = k then some v else none) := by
  rw [get?_ofLast, get?_ofLast, List.reverse_cons, List.lookup_append]
  congr 1
  by_cases h : j = k
  · simp [h]
  · simp [h, List.lookup_cons, beq_eq_false_iff_ne.2 h]

/-! ## Tables in which the first entry counts -/

theorem get?_insertNew (m : OrderedMap α β) (k j : α) (v : β) :
    (m.insertNew k v).get? j = (m.get? j).or (if j = k then some v else none) := by
  unfold insertNew contains
  by_cases h : j = k
  · subst h
    cases hm : m.get? j <;> simp [hm]
  · by_cases hc : (m.get? k).isSome <;> simp [hc, h]

theorem get?_foldl_insertNew (k : α) : ∀ (es : List (α × β)) (m : OrderedMap α β),
    (es.foldl (fun m e => m.insertNew e.1 e.2) m).get? k = (m.get? k).or (es.lookup k)
  | [], m => (Option.or_none).symm
  | (j, v) :: es, m => by
    rw [List.foldl_cons, get?_foldl_insertNew k es, get?_insertNew, Option.or_assoc]
    congr 1
    by_cases h : k = j
    · simp [h]
    · simp [h, List.lookup_cons, beq_eq_false_iff_ne.2 h]

theorem get?_ofFirst (es : List (α × β)) (k : α) : (ofFirst es).get? k = es.lookup k := by
  rw [ofFirst, get?_foldl_insertNew, get?_empty, Option.none_or]

/-! ## Keys -/

/-- An insertion keeps the keys distinct. -/
theorem nodup_keys_insert {m : OrderedMap α β} (h : m.keys.Nodup) (k : α) (v : β) : (m.insert k v).keys.Nodup := by
  rw [keys_insert]
  split
  · exact h
  · rename_i hk
    exact List.nodup_append.2 ⟨h, List.nodup_singleton k, fun a ha b hb e => hk (by simp_all)⟩

theorem nodup_keys_insertNew {m : OrderedMap α β} (h : m.keys.Nodup) (k : α) (v : β) :
    (m.insertNew k v).keys.Nodup := by
  unfold insertNew
  split
  · exact h
  · exact nodup_keys_insert h k v

theorem nodup_keys_foldl_insertNew : ∀ (es : List (α × β)) {m : OrderedMap α β}, m.keys.Nodup →
    (es.foldl (fun m e => m.insertNew e.1 e.2) m).keys.Nodup
  | [], _, h => h
  | e :: es, _, h => nodup_keys_foldl_insertNew es (nodup_keys_insertNew h e.1 e.2)

theorem nodup_keys_ofFirst (es : List (α × β)) : (ofFirst es).keys.Nodup :=
  nodup_keys_foldl_insertNew es List.nodup_nil

/-- Where no key is listed twice, the entries are what is looked up. -/
theorem mem_entries_iff {m : OrderedMap α β} (h : m.keys.Nodup) {k : α} {v : β} :
    (k, v) ∈ m.entries ↔ m.get? k = some v :=
  ⟨fun hm => lookup_of_mem h hm, fun hg => mem_of_lookup hg⟩

/-! ## Insertions one after another -/

/-- Inserting the value that a key has changes nothing. -/
theorem insert_self {m : OrderedMap α β} {k : α} {v : β} (h : m.get? k = some v) : m.insert k v = m := by
  have walk : ∀ {es : List (α × β)}, es.lookup k = some v → insertEntry k v es = es := by
    intro es
    induction es with
    | nil => exact nofun
    | cons e es ih =>
      obtain ⟨j, w⟩ := e
      intro h
      by_cases hj : j = k
      · subst hj
        rw [List.lookup_cons_self] at h
        cases h
        rw [insertEntry, if_pos rfl]
      · rw [List.lookup_cons, beq_eq_false_iff_ne.2 (Ne.symm hj)] at h
        rw [insertEntry, if_neg hj, ih h]
  exact congrArg OrderedMap.mk (walk h)

/-- The second of two insertions at one key counts. -/
theorem insert_insert (m : OrderedMap α β) (k : α) (v w : β) : (m.insert k v).insert k w = m.insert k w := by
  have walk : ∀ es : List (α × β), insertEntry k w (insertEntry k v es) = insertEntry k w es := by
    intro es
    induction es with
    | nil => simp [insertEntry]
    | cons e es ih => by_cases h : e.1 = k <;> simp [insertEntry, h, ih]
  exact congrArg OrderedMap.mk (walk m.entries)

/-- Insertions at two keys may change places, unless both keys are new. -/
theorem insert_comm {m : OrderedMap α β} {j k : α} (other : j ≠ k) (known : k ∈ m.keys) (v w : β) :
    (m.insert k w).insert j v = (m.insert j v).insert k w := by
  have walk : ∀ {es : List (α × β)}, k ∈ es.map Prod.fst →
      insertEntry j v (insertEntry k w es) = insertEntry k w (insertEntry j v es) := by
    intro es
    induction es with
    | nil => exact nofun
    | cons e es ih =>
      intro known
      by_cases hk : e.1 = k
      · simp [insertEntry, hk, Ne.symm other]
      · have rest := ih ((List.mem_cons.1 known).resolve_left (Ne.symm hk))
        by_cases hj : e.1 = j <;> simp [insertEntry, hk, hj, other, rest]
  exact congrArg OrderedMap.mk (walk known)

theorem mem_keys_insert {m : OrderedMap α β} {k : α} (h : k ∈ m.keys) (j : α) (v : β) : k ∈ (m.insert j v).keys := by
  rw [keys_insert]
  split_ifs
  · exact h
  · exact List.mem_append_left _ h

/-- An insertion before others makes no difference if its key is inserted again among them. -/
theorem foldl_insert_of_again {m : OrderedMap α β} {k : α} (known : k ∈ m.keys) (v : β) {es : List (α × β)}
    (again : k ∈ es.map Prod.fst) :
    es.foldl (fun m e => m.insert e.1 e.2) (m.insert k v) = es.foldl (fun m e => m.insert e.1 e.2) m := by
  induction es generalizing m with
  | nil => cases again
  | cons e es ih =>
    rw [List.foldl_cons, List.foldl_cons]
    by_cases here : e.1 = k
    · rw [here, insert_insert]
    · rw [insert_comm here known]
      exact ih (mem_keys_insert known _ _) ((List.mem_cons.1 again).resolve_left (Ne.symm here))

/-- Where every key has the last of the values that are inserted for it, the insertions as a whole change nothing. -/
theorem foldl_insert_eq_self {m : OrderedMap α β} {es : List (α × β)}
    (last : ∀ k v, (ofLast es).get? k = some v → m.get? k = some v) :
    es.foldl (fun m e => m.insert e.1 e.2) m = m := by
  induction es with
  | nil => rfl
  | cons e es ih =>
    obtain ⟨k, v⟩ := e
    simp only [get?_ofLast_cons] at last
    have rest : es.foldl (fun m e => m.insert e.1 e.2) m = m := ih fun j w hw => last j w (by rw [hw, Option.some_or])
    rw [List.foldl_cons]
    cases later : (ofLast es).get? k with
    | some w =>
      have known : m.get? k = some w := last k w (by rw [later, Option.some_or])
      have again : k ∈ es.map Prod.fst := by
        rw [get?_ofLast] at later
        rw [← List.mem_reverse, ← List.map_reverse]
        exact mem_map_fst_of_lookup later
      rw [foldl_insert_of_again (mem_keys_of_get? known) v again, rest]
    | none =>
      have known : m.get? k = some v := last k v (by rw [later, Option.none_or, if_pos rfl])
      rw [insert_self known, rest]

/-- Nothing gets into a table but the entries that it is made from. -/
theorem mem_of_mem_ofFirst {es : List (α × β)} {k : α} {v : β} (h : (k, v) ∈ (ofFirst es).entries) : (k, v) ∈ es := by
  rw [mem_entries_iff (nodup_keys_ofFirst es), get?_ofFirst] at h
  exact mem_of_lookup h

end OrderedMap

end SchemaTypings

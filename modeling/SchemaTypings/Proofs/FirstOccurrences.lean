import Mathlib.Data.List.Induction

/-!
# First occurrences

- `FirstOccurrences xs ys`: the list `ys` has the elements of `xs` in the order in which they first occur. It has each
  of them once (`FirstOccurrences.nodup`);
- `FirstOccurrences.append_known`, `FirstOccurrences.append_new`: what an element at the end of `xs` changes;
- `firstOccurrences_eraseDups`: `List.eraseDups` keeps the first occurrences.
-/

namespace SchemaTypings

variable {α : Type} [DecidableEq α]

/-- The elements of a list, each once and in the order in which they first occur. -/
structure FirstOccurrences (xs ys : List α) : Prop where
  mem : ∀ a, a ∈ ys ↔ a ∈ xs
  ordered : ys.Pairwise fun a b => xs.idxOf a < xs.idxOf b

namespace FirstOccurrences

variable {xs ys : List α} {a : α}

theorem nil : FirstOccurrences ([] : List α) [] := ⟨fun _ => Iff.rfl, .nil⟩

theorem nodup (h : FirstOccurrences xs ys) : ys.Nodup := by
  refine h.ordered.imp ?_
  rintro a _ before rfl
  exact Nat.lt_irrefl _ before

/-- Where elements first occur does not depend on what follows. -/
theorem ordered_append (h : FirstOccurrences xs ys) (zs : List α) :
    ys.Pairwise fun a b => (xs ++ zs).idxOf a < (xs ++ zs).idxOf b := by
  refine h.ordered.imp_of_mem fun {a b} ha hb before => ?_
  rwa [List.idxOf_append, List.idxOf_append, if_pos ((h.mem a).1 ha), if_pos ((h.mem b).1 hb)]

/-- An element that occurs again adds nothing. -/
theorem append_known (h : FirstOccurrences xs ys) (known : a ∈ xs) : FirstOccurrences (xs ++ [a]) ys where
  mem b := by
    rw [h.mem, List.mem_append, List.mem_singleton]
    constructor
    · exact .inl
    · rintro (hb | rfl)
      · exact hb
      · exact known
  ordered := h.ordered_append [a]

/-- A new element comes last. -/
theorem append_new (h : FirstOccurrences xs ys) (new : a ∉ xs) : FirstOccurrences (xs ++ [a]) (ys ++ [a]) where
  mem b := by rw [List.mem_append, List.mem_append, h.mem]
  ordered := by
    refine List.pairwise_append.2 ⟨h.ordered_append [a], List.pairwise_singleton _ _, fun b hb c hc => ?_⟩
    obtain rfl := List.mem_singleton.1 hc
    have early : xs.idxOf b < xs.length := List.idxOf_lt_length_of_mem ((h.mem b).1 hb)
    rw [List.idxOf_append, List.idxOf_append, if_pos ((h.mem b).1 hb), if_neg new]
    omega

end FirstOccurrences

theorem firstOccurrences_eraseDups (xs : List α) : FirstOccurrences xs xs.eraseDups := by
  induction xs using List.reverseRecOn with
  | nil => exact .nil
  | append_singleton xs a ih =>
    rw [List.eraseDups_append]
    by_cases known : a ∈ xs
    · have nothing : [a].removeAll xs = [] := by simp [List.removeAll, known]
      rw [nothing, List.eraseDups_nil, List.append_nil]
      exact ih.append_known known
    · have last : [a].removeAll xs = [a] := by simp [List.removeAll, known]
      rw [last, List.eraseDups_cons, List.filter_nil, List.eraseDups_nil]
      exact ih.append_new known

end SchemaTypings

import Mathlib.Data.List.Forall2
import SchemaTypings.Fault

/-!
# Computations that may fault

How a computation in `Except` comes apart into its steps.

- `bind_eq_ok`, `bind_eq_error`, `guard_eq_ok`: a sequence of two steps, and a step that may be refused;
- `mapM_eq_ok`, `mapM_eq_error`: one step for each element of a list;
- `OnlyFaults P x`: whatever fault `x` ends with, it has the property `P`. This is kept by sequences and loops, and a
  computation without possible faults has a result (`OnlyFaults.exists_ok`);
- `Persists P x y`: `y` comes to the result of `x`, or to its fault if that has the property `P`. Sequences and loops
  keep this as well, and where `P` holds of all faults, `x` and `y` are equal (`Persists.eq`);
- `fault? x`: the fault that `x` ends with. A sequence has the fault of its first step that has one (`fault?_bind`), and
  so has a loop (`fault?_mapM`).
-/

namespace SchemaTypings

variable {ε α β : Type}

/-! ## Sequences -/

theorem bind_eq_ok {x : Except ε α} {f : α → Except ε β} {b : β} :
    x >>= f = .ok b ↔ ∃ a, x = .ok a ∧ f a = .ok b := by
  cases x <;> simp [bind, Except.bind]

theorem bind_eq_error {x : Except ε α} {f : α → Except ε β} {e : ε} :
    x >>= f = .error e ↔ x = .error e ∨ ∃ a, x = .ok a ∧ f a = .error e := by
  cases x <;> simp [bind, Except.bind]

/-- A step that is refused on a condition. -/
theorem guard_eq_ok {c : Prop} [Decidable c] {e : ε} {k : PUnit → Except ε α} {a : α} :
    (if c then (throw e : Except ε PUnit) >>= k else k ⟨⟩) = .ok a ↔ ¬c ∧ k ⟨⟩ = .ok a := by
  split_ifs with h
  · simp [h, throw, throwThe, MonadExceptOf.throw, bind, Except.bind]
  · simp [h]

@[simp] theorem ok_bind (a : α) (f : α → Except ε β) : (Except.ok a >>= f) = f a := rfl

@[simp] theorem pure_eq_ok (a : α) : (pure a : Except ε α) = .ok a := rfl

/-! ## Loops -/

/-- A loop succeeds with the results of its steps, in order. -/
theorem mapM_eq_ok {f : α → Except ε β} :
    ∀ {xs : List α} {ys : List β}, xs.mapM f = .ok ys ↔ List.Forall₂ (fun x y => f x = .ok y) xs ys
  | [], ys => by cases ys <;> simp
  | x :: xs, ys => by
    rw [List.mapM_cons]
    constructor
    · intro h
      obtain ⟨y, hy, h⟩ := bind_eq_ok.1 h
      obtain ⟨zs, hz, h⟩ := bind_eq_ok.1 h
      cases h
      exact .cons hy (mapM_eq_ok.1 hz)
    · rintro (_ | ⟨hy, hz⟩)
      rw [hy, ok_bind, mapM_eq_ok.2 hz]
      rfl

/-- Where the steps keep a key, the results have the keys of what they come from. -/
theorem map_eq_of_mapM {γ : Type} {f : α → Except ε β} {key : α → γ} {key' : β → γ} {xs : List α} {ys : List β}
    (h : xs.mapM f = .ok ys) (keep : ∀ x y, f x = .ok y → key' y = key x) : ys.map key' = xs.map key := by
  have keys : List.Forall₂ (fun y x => key' y = key x) ys xs := ((mapM_eq_ok.1 h).imp keep).flip
  rw [← List.forall₂_eq_eq_eq, List.forall₂_map_left_iff, List.forall₂_map_right_iff]
  exact keys

/-- The fault of a loop is that of one of its steps. -/
theorem mapM_eq_error {f : α → Except ε β} {e : ε} :
    ∀ {xs : List α}, xs.mapM f = .error e → ∃ x ∈ xs, f x = .error e
  | [], h => by cases h
  | x :: xs, h => by
    rw [List.mapM_cons] at h
    rcases bind_eq_error.1 h with h | ⟨y, _, h⟩
    · exact ⟨x, List.mem_cons_self, h⟩
    · rcases bind_eq_error.1 h with h | ⟨zs, _, h⟩
      · obtain ⟨z, hz, h⟩ := mapM_eq_error h
        exact ⟨z, List.mem_cons_of_mem _ hz, h⟩
      · cases h

theorem mapM_append_eq_ok {f : α → Except ε β} {xs ys : List α} {zs : List β} :
    (xs ++ ys).mapM f = .ok zs ↔ ∃ us vs, xs.mapM f = .ok us ∧ ys.mapM f = .ok vs ∧ zs = us ++ vs := by
  rw [List.mapM_append, bind_eq_ok]
  simp only [bind_eq_ok, pure_eq_ok, Except.ok.injEq]
  constructor
  · rintro ⟨us, hu, vs, hv, rfl⟩
    exact ⟨us, vs, hu, hv, rfl⟩
  · rintro ⟨us, vs, hu, hv, rfl⟩
    exact ⟨us, hu, vs, hv, rfl⟩

/-- A loop may leave what its steps do with their results to the end. -/
theorem mapM_map {γ : Type} (f : α → Except ε β) (g : β → γ) : ∀ xs : List α,
    xs.mapM (fun x => do return g (← f x)) = (do return (← xs.mapM f).map g)
  | [] => rfl
  | x :: xs => by
    rw [List.mapM_cons, List.mapM_cons, mapM_map f g xs]
    cases f x with
    | error e => rfl
    | ok y => cases xs.mapM f <;> rfl

/-- The elements of a list side by side with the results of their steps. -/
theorem exists_rows_of_mapM {f : α → Except ε β} {xs : List α} {ys : List β} (h : xs.mapM f = .ok ys) :
    ∃ rows : List (α × β), rows.map Prod.fst = xs ∧ rows.map Prod.snd = ys ∧ ∀ r ∈ rows, f r.1 = .ok r.2 := by
  have steps := mapM_eq_ok.1 h
  refine ⟨xs.zip ys, List.map_fst_zip (Nat.le_of_eq steps.length_eq),
    List.map_snd_zip (Nat.le_of_eq steps.length_eq.symm), ?_⟩
  exact fun r hr => List.forall₂_zip steps hr

theorem mapM_of_rows {f : α → Except ε β} {rows : List (α × β)} (h : ∀ r ∈ rows, f r.1 = .ok r.2) :
    (rows.map Prod.fst).mapM f = .ok (rows.map Prod.snd) := by
  rw [mapM_eq_ok, List.forall₂_map_left_iff, List.forall₂_map_right_iff, List.forall₂_same]
  exact h

/-- Every result of a loop is that of one of its steps. -/
theorem exists_of_mem_mapM {f : α → Except ε β} {xs : List α} {ys : List β} {y : β} (h : xs.mapM f = .ok ys)
    (hy : y ∈ ys) : ∃ x ∈ xs, f x = .ok y := by
  obtain ⟨i, hi, rfl⟩ := List.getElem_of_mem hy
  have hf := mapM_eq_ok.1 h
  have hx : i < xs.length := by rw [hf.length_eq]; exact hi
  exact ⟨xs[i], List.getElem_mem hx, hf.get hx hi⟩

/-- Every step of a loop that succeeds has its result among those of the loop. -/
theorem exists_mem_of_mapM {f : α → Except ε β} {xs : List α} {ys : List β} {x : α} (h : xs.mapM f = .ok ys)
    (hx : x ∈ xs) : ∃ y ∈ ys, f x = .ok y := by
  obtain ⟨i, hi, rfl⟩ := List.getElem_of_mem hx
  have hf := mapM_eq_ok.1 h
  have hy : i < ys.length := by rw [← hf.length_eq]; exact hi
  exact ⟨ys[i], List.getElem_mem hy, hf.get hi hy⟩

/-- A loop all of whose steps succeed succeeds. -/
theorem mapM_isOk {f : α → Except ε β} {xs : List α} (h : ∀ x ∈ xs, ∃ y, f x = .ok y) : ∃ ys, xs.mapM f = .ok ys := by
  cases hf : xs.mapM f with
  | ok ys => exact ⟨ys, rfl⟩
  | error e =>
    obtain ⟨x, hx, he⟩ := mapM_eq_error hf
    obtain ⟨y, hy⟩ := h x hx
    rw [he] at hy
    cases hy

/-- Two loops whose steps succeed together, with their results side by side. -/
theorem exists_mapM_of_mapM {γ : Type} {f : α → Except ε β} {g : α → Except ε γ} {R : α → β → γ → Prop} :
    ∀ {xs : List α} {zs : List γ}, xs.mapM g = .ok zs →
      (∀ x ∈ xs, ∀ z, g x = .ok z → ∃ y, f x = .ok y ∧ R x y z) →
      ∃ rows : List (α × β × γ), rows.map (·.1) = xs ∧ xs.mapM f = .ok (rows.map (·.2.1)) ∧ zs = rows.map (·.2.2) ∧
        ∀ r ∈ rows, R r.1 r.2.1 r.2.2
  | [], zs, h, _ => by
    cases h
    exact ⟨[], rfl, rfl, rfl, fun _ hr => by cases hr⟩
  | x :: xs, zs, h, each => by
    rw [List.mapM_cons] at h
    obtain ⟨z, hz, h⟩ := bind_eq_ok.1 h
    obtain ⟨zs, hzs, h⟩ := bind_eq_ok.1 h
    cases h
    obtain ⟨y, hy, hr⟩ := each x List.mem_cons_self z hz
    obtain ⟨rows, rfl, hys, rfl, related⟩ := exists_mapM_of_mapM hzs fun x hx => each x (List.mem_cons_of_mem _ hx)
    refine ⟨(x, y, z) :: rows, rfl, ?_, rfl, ?_⟩
    · rw [List.map_cons, List.mapM_cons, hy, ok_bind, hys]
      rfl
    · rintro r (_ | ⟨_, hr'⟩)
      · exact hr
      · exact related r hr'

/-- Steps that may come to nothing are selected by what they come to. -/
theorem filterMap_of_mapM {f : α → Except ε (Option β)} {xs : List α} {os : List (Option β)}
    (h : xs.mapM f = .ok os) : os.filterMap id = xs.filterMap fun x => (f x).toOption.join := by
  have steps := mapM_eq_ok.1 h
  induction steps with
  | nil => rfl
  | @cons x o _ _ step steps ih =>
    rw [List.filterMap_cons, List.filterMap_cons, ih (mapM_eq_ok.2 steps), step]
    rfl

/-! ## Properties of faults -/

/-- Every fault that a computation can end with has a property. -/
def OnlyFaults (P : ε → Prop) (x : Except ε α) : Prop := ∀ e, x = .error e → P e

namespace OnlyFaults

variable {P : ε → Prop}

theorem ok (a : α) : OnlyFaults P (.ok a : Except ε α) := fun _ h => by cases h

theorem error {e : ε} (h : P e) : OnlyFaults P (.error e : Except ε α) := fun _ he => by cases he; exact h

theorem of_eq_ok {x : Except ε α} {a : α} (h : x = .ok a) : OnlyFaults P x := h ▸ ok a

theorem bind {x : Except ε α} {f : α → Except ε β} (hx : OnlyFaults P x) (hf : ∀ a, x = .ok a → OnlyFaults P (f a)) :
    OnlyFaults P (x >>= f) := by
  intro e h
  rcases bind_eq_error.1 h with h | ⟨a, ha, h⟩
  · exact hx e h
  · exact hf a ha e h

theorem mapM {f : α → Except ε β} {xs : List α} (h : ∀ x ∈ xs, OnlyFaults P (f x)) : OnlyFaults P (xs.mapM f) := by
  intro e he
  obtain ⟨x, hx, hf⟩ := mapM_eq_error he
  exact h x hx e hf

/-- Where no fault is possible there is a result. -/
theorem exists_ok {x : Except ε α} (h : OnlyFaults P x) (none : ∀ e, ¬P e) : ∃ a, x = .ok a := by
  cases x with
  | ok a => exact ⟨a, rfl⟩
  | error e => exact absurd (h e rfl) (none e)

end OnlyFaults

/-! ## Results that persist -/

/-- What a computation comes to, another one comes to as well: any result, and any fault with a property. -/
structure Persists (P : ε → Prop) (x y : Except ε α) : Prop where
  result : ∀ a, x = .ok a → y = .ok a
  fault : ∀ e, P e → x = .error e → y = .error e

namespace Persists

variable {P : ε → Prop}

theorem refl (x : Except ε α) : Persists P x x := ⟨fun _ => id, fun _ _ => id⟩

theorem of_eq {x y : Except ε α} (h : x = y) : Persists P x y := h ▸ refl x

/-- If all faults persist, so does everything. -/
theorem eq {x y : Except ε α} (h : Persists P x y) (all : ∀ e, P e) : x = y := by
  cases x with
  | ok a => exact (h.result a rfl).symm
  | error e => exact (h.fault e (all e) rfl).symm

theorem bind {x y : Except ε α} {f g : α → Except ε β} (first : Persists P x y)
    (rest : ∀ a, x = .ok a → Persists P (f a) (g a)) : Persists P (x >>= f) (y >>= g) where
  result b h := by
    obtain ⟨a, ha, hb⟩ := bind_eq_ok.1 h
    exact bind_eq_ok.2 ⟨a, first.result a ha, (rest a ha).result b hb⟩
  fault e he h := by
    refine bind_eq_error.2 ?_
    rcases bind_eq_error.1 h with h | ⟨a, ha, h⟩
    · exact .inl (first.fault e he h)
    · exact .inr ⟨a, first.result a ha, (rest a ha).fault e he h⟩

/-- What is done with a result may be the same. -/
theorem bind_same {x y : Except ε α} (first : Persists P x y) (f : α → Except ε β) : Persists P (x >>= f) (y >>= f) :=
  first.bind fun _ _ => refl _

theorem mapM {f g : α → Except ε β} : ∀ {xs : List α}, (∀ x ∈ xs, Persists P (f x) (g x)) →
    Persists P (xs.mapM f) (xs.mapM g)
  | [], _ => refl _
  | x :: xs, h => by
    rw [List.mapM_cons, List.mapM_cons]
    refine (h x List.mem_cons_self).bind fun y _ => ?_
    exact (mapM fun z hz => h z (List.mem_cons_of_mem _ hz)).bind_same _

theorem forM {f g : α → Except ε PUnit} : ∀ {xs : List α}, (∀ x ∈ xs, Persists P (f x) (g x)) →
    Persists P (xs.forM f) (xs.forM g)
  | [], _ => refl _
  | x :: xs, h => by
    rw [List.forM_eq_forM, List.forM_cons, List.forM_cons]
    exact (h x List.mem_cons_self).bind fun _ _ => forM fun z hz => h z (List.mem_cons_of_mem _ hz)

end Persists

/-! ## The fault of a computation -/

/-- The fault that a computation ends with, if it does not come to a result. -/
def fault? : Except ε α → Option ε
  | .ok _ => none
  | .error e => some e

theorem fault?_eq_some {x : Except ε α} {e : ε} : fault? x = some e ↔ x = .error e := by
  cases x <;> simp [fault?]

theorem fault?_eq_none {x : Except ε α} : fault? x = none ↔ ∃ a, x = .ok a := by
  cases x <;> simp [fault?]

/-- A sequence ends with the fault of its first step, or else with that of its second. -/
theorem fault?_bind {x : Except ε α} {f : α → Except ε β} {o : Option ε} (h : ∀ a, x = .ok a → fault? (f a) = o) :
    fault? (x >>= f) = (fault? x).or o := by
  cases x with
  | error e => rfl
  | ok a => exact h a rfl

/-- What is done with a result in the end adds no fault. -/
theorem fault?_map (x : Except ε α) (g : α → β) : fault? (do return g (← x)) = fault? x := by
  cases x <;> rfl

/-- The first find in a list of lists is that in the first list with a find. -/
theorem findSome?_flatMap {γ : Type} (f : α → List β) (g : β → Option γ) : ∀ xs : List α,
    (xs.flatMap f).findSome? g = xs.findSome? fun x => (f x).findSome? g
  | [] => rfl
  | x :: xs => by
    rw [List.flatMap_cons, List.findSome?_append, findSome?_flatMap f g xs, List.findSome?_cons]
    cases (f x).findSome? g <;> rfl

/-- A loop ends with the fault of its first step that has one. -/
theorem fault?_mapM {f : α → Except ε β} {g : α → Option ε} (each : ∀ x, fault? (f x) = g x) :
    ∀ xs : List α, fault? (xs.mapM f) = xs.findSome? g
  | [] => rfl
  | x :: xs => by
    have rest : ∀ y, fault? (do return y :: (← xs.mapM f)) = xs.findSome? g := fun y => by
      rw [fault?_map, fault?_mapM each xs]
    rw [List.mapM_cons, fault?_bind fun y _ => rest y, each, List.findSome?_cons]
    cases g x <;> rfl

theorem fault?_forM {f : α → Except ε PUnit} {g : α → Option ε} (each : ∀ x, fault? (f x) = g x) :
    ∀ xs : List α, fault? (xs.forM f) = xs.findSome? g
  | [] => rfl
  | x :: xs => by
    rw [List.forM_eq_forM, List.forM_cons, ← List.forM_eq_forM, fault?_bind fun _ _ => fault?_forM each xs, each,
      List.findSome?_cons]
    cases g x <;> rfl

end SchemaTypings

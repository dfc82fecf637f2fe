import SchemaTypings.Proofs.FirstOccurrences
import SchemaTypings.Proofs.Unions

/-!
# Laws of unions

Unions of constructed types do not depend on how their members are grouped. Only one level of nesting is taken in by
`TypeExpr.union`, so that the laws hold because of the invariant of the unions that it is given (`Flat`).

- `union_map_union`: unions of unions are one union;
- `union_singleton`, `or_self`, `or_assoc`: a type is the union of itself alone, and `or` is idempotent and associative;
- `unions_normalise`: all of this, and what the members of a union are.
-/

namespace SchemaTypings

/-! ## Repetitions in parts of a list -/

section Repetitions

variable {α β : Type} [DecidableEq α]

/-- Repetitions at the front may be dropped before those of the whole. -/
theorem eraseDups_eraseDups_append (xs ys : List α) : (xs.eraseDups ++ ys).eraseDups = (xs ++ ys).eraseDups := by
  have same : ys.removeAll xs.eraseDups = ys.removeAll xs :=
    List.filter_congr fun y _ => by rw [Bool.eq_iff_iff]; simp [List.mem_eraseDups]
  rw [List.eraseDups_append, List.eraseDups_append, eraseDups_of_nodup (nodup_eraseDups xs), same]

/-- Repetitions at the end may be dropped before those of the whole. -/
theorem eraseDups_append_eraseDups (xs ys : List α) : (xs ++ ys.eraseDups).eraseDups = (xs ++ ys).eraseDups := by
  rw [List.eraseDups_append, List.eraseDups_append, List.removeAll, filter_eraseDups,
    eraseDups_of_nodup (nodup_eraseDups _), List.removeAll]

theorem eraseDups_flatMap_eraseDups (f : β → List α) : ∀ xs : List β,
    (xs.flatMap fun x => (f x).eraseDups).eraseDups = (xs.flatMap f).eraseDups
  | [] => rfl
  | x :: xs => by
    rw [List.flatMap_cons, List.flatMap_cons, eraseDups_eraseDups_append, ← eraseDups_append_eraseDups,
      eraseDups_flatMap_eraseDups f xs, eraseDups_append_eraseDups]

end Repetitions

namespace TypeScript.TypeExpr

/-! ## Laws -/

/-- Unions of unions are one union. None of the inner ones may be empty, since a union of nothing is `never`. -/
theorem union_map_union (tss : List (List TypeExpr)) (flat : ∀ ts ∈ tss, ∀ t ∈ ts, Flat t)
    (some : ∀ ts ∈ tss, ts ≠ []) : union (tss.map union) = union tss.flatten := by
  by_cases none : tss = []
  · rw [none]
    rfl
  have flat_unions : ∀ t ∈ tss.map union, Flat t := by
    intro t ht
    obtain ⟨ts, hts, rfl⟩ := List.mem_map.1 ht
    exact .union (flat ts hts)
  have flat_flatten : ∀ t ∈ tss.flatten, Flat t := by
    intro t ht
    obtain ⟨ts, hts, ht⟩ := List.mem_flatten.1 ht
    exact flat ts hts t ht
  have some_flatten : tss.flatten ≠ [] := by
    obtain ⟨ts, tss', rfl⟩ := List.exists_cons_of_ne_nil none
    simp [some ts List.mem_cons_self]
  refine (Flat.union flat_unions).eq_of_alternatives (.union flat_flatten) ?_
  calc (union (tss.map union)).alternatives
    _ = (tss.flatMap fun ts => (union ts).alternatives).eraseDups := by
      rw [alternatives_union flat_unions (by simpa using none), List.flatMap_map]
    _ = (tss.flatMap fun ts => (ts.flatMap alternatives).eraseDups).eraseDups := by
      rw [List.flatMap_congr fun ts hts => alternatives_union (flat ts hts) (some ts hts)]
    _ = (tss.flatMap fun ts => ts.flatMap alternatives).eraseDups := eraseDups_flatMap_eraseDups _ _
    _ = (union tss.flatten).alternatives := by
      rw [alternatives_union flat_flatten some_flatten, List.flatten_eq_flatMap, List.flatMap_assoc]
      rfl

/-- A type alone is its own union. -/
theorem union_singleton {t : TypeExpr} (flat : Flat t) : union [t] = t := by
  have only : ∀ s ∈ [t], Flat s := by simpa using flat
  refine (Flat.union only).eq_of_alternatives flat ?_
  rw [alternatives_union only (by simp), List.flatMap_singleton, eraseDups_of_nodup flat.nodup_alternatives]

theorem or_self {t : TypeExpr} (flat : Flat t) : t.or t = t := by
  have both : ∀ s ∈ [t, t], Flat s := by simpa using flat
  have again : t.alternatives.removeAll t.alternatives = [] :=
    List.filter_eq_nil_iff.2 fun a ha => by simpa using ha
  refine (Flat.union both).eq_of_alternatives flat ?_
  rw [alternatives_union both (by simp), List.flatMap_cons, List.flatMap_singleton, List.eraseDups_append, again,
    eraseDups_of_nodup flat.nodup_alternatives]
  exact List.append_nil _

theorem or_assoc {s t r : TypeExpr} (hs : Flat s) (ht : Flat t) (hr : Flat r) : (s.or t).or r = s.or (t.or r) := by
  have left : union [union [s, t], union [r]] = union [s, t, r] :=
    union_map_union [[s, t], [r]] (by simp [hs, ht, hr]) (by simp)
  have right : union [union [s], union [t, r]] = union [s, t, r] :=
    union_map_union [[s], [t, r]] (by simp [hs, ht, hr]) (by simp)
  rw [union_singleton hr] at left
  rw [union_singleton hs] at right
  exact left.trans right.symm

/-! ## Normal forms -/

/-- A type that is a union has at least two members, each once, and none of them is a union. -/
def Normal (t : TypeExpr) : Prop :=
  ∀ ms, t = .oneOf ms → 2 ≤ ms.length ∧ ms.Nodup ∧ ∀ m ∈ ms, ∀ ns, m ≠ .oneOf ns

theorem Flat.normal {t : TypeExpr} (h : Flat t) : Normal t := by
  rintro ms rfl
  cases h with
  | oneOf _ single distinct several =>
    refine ⟨several, distinct, fun m hm ns e => ?_⟩
    obtain rfl := e
    exact oneOf_not_single (single _ hm)

/-- A type is made up of the members of the given types, in the order in which they first occur. -/
structure Collects (ts : List TypeExpr) (t : TypeExpr) : Prop where
  never : ts = [] → t = never
  one : ∀ s, ts ≠ [] → (∀ a ∈ ts.flatMap alternatives, a = s) → t = s
  members : ts ≠ [] → FirstOccurrences (ts.flatMap alternatives) t.alternatives

theorem collects_union {ts : List TypeExpr} (flat : ∀ t ∈ ts, Flat t) : Collects ts (union ts) := by
  have members (some : ts ≠ []) : FirstOccurrences (ts.flatMap alternatives) (union ts).alternatives := by
    rw [alternatives_union flat some]
    exact firstOccurrences_eraseDups _
  refine ⟨fun none => none ▸ rfl, fun s some same => ?_, members⟩
  -- A flat type whose members are all `s` has `s` as its only member, and is then no union.
  have flat_union := Flat.union flat
  cases h : union ts with
  | oneOf as =>
    have all : ∀ a ∈ as, a = s := fun a ha => same a (((members some).mem a).1 (by rw [h]; exact ha))
    obtain ⟨several, distinct, -⟩ := flat_union.normal as h
    have fewer := (distinct.subperm fun a ha => List.mem_singleton.2 (all a ha)).length_le
    exact absurd (Nat.le_trans several fewer) (by simp)
  | _ => exact same _ (((members some).mem _).1 (by rw [h]; exact List.mem_singleton_self _))

/-- The laws of the unions of two lists of types and of three types. -/
structure Normalises (xs ys : List TypeExpr) (a b c : TypeExpr) : Prop where
  normal_union : Normal (union xs)
  normal_or : Normal (a.or b)
  collects : Collects xs (union xs)
  regroup : xs ≠ [] → ys ≠ [] → union [union xs, union ys] = union (xs ++ ys)
  assoc : (a.or b).or c = a.or (b.or c)
  idem : a.or a = a
  null_twice : (a.or null).or null = a.or null

/-- Unions of constructed types normalise: they are neither nested nor repetitive, their members are those of the given
types in the order in which they first occur, and neither regrouping nor repeating the types makes a difference. -/
theorem unions_normalise {xs ys : List TypeExpr} {a b c : TypeExpr} (builtx : ∀ t ∈ xs, Built t)
    (builty : ∀ t ∈ ys, Built t) (builta : Built a) (builtb : Built b) (builtc : Built c) :
    Normalises xs ys a b c := by
  have flatx : ∀ t ∈ xs, Flat t := fun t ht => (builtx t ht).flat
  have flaty : ∀ t ∈ ys, Flat t := fun t ht => (builty t ht).flat
  have nulls : null.or null = null := or_self flat_null
  refine ⟨(Flat.union flatx).normal, (builta.or builtb).flat.normal, collects_union flatx, fun somex somey => ?_,
    or_assoc builta.flat builtb.flat builtc.flat, or_self builta.flat, ?_⟩
  · have parts := union_map_union [xs, ys] (by simpa using ⟨flatx, flaty⟩) (by simp [somex, somey])
    simpa using parts
  · rw [or_assoc builta.flat flat_null flat_null, nulls]

/-- A resolver of one parameter, in its plain form. -/
def unaryResolver (parent : String) : TypeExpr := .function [.required "parent" (ident parent)] ((ident "ID").or null)

/-- The union of a resolver with a type that allows `null`, and repetitions of its members. -/
def repeatedMembers : List TypeExpr := [unaryResolver "User", (ident "ID").or null, null, unaryResolver "User"]

theorem resolver_unions_normalise :
    Normalises repeatedMembers [never, (unaryResolver "User").or null] (unaryResolver "User") ((ident "ID").or null)
      (null.or (unaryResolver "Post")) := by
  have ident (n : String) : Built (.ident n) := .named _ (by simp)
  have nullable : Built ((TypeExpr.ident "ID").or null) := .or (ident _) (ident _)
  have resolver (n : String) : Built (unaryResolver n) := .function (by simpa [Member.required] using ident n) nullable
  refine unions_normalise ?_ ?_ (resolver _) nullable (.or (ident _) (resolver _))
  · simpa [repeatedMembers] using ⟨resolver "User", nullable, ident "null", resolver "User"⟩
  · simpa [repeatedMembers] using ⟨ident "never", (resolver "User").or (ident "null")⟩

/-- An empty list is not regrouped: its union is `never`, which then is a member. -/
example : union [union [], union [null]] ≠ union ([] ++ [null]) := by decide +kernel

end TypeScript.TypeExpr

end SchemaTypings

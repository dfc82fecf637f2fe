import Mathlib.Data.List.Perm.Subperm
import SchemaTypings.Proofs.Tables
import SchemaTypings.TypeScript.TypeExpr

/-!
# Constructed types

What the constructors of types make, and the invariant of the unions in it.

- `Built`: the types that the constructors make;
- `Flat`: the unions in a type have at least two members, each once, and none of them is a union;
- `Built.flat`: constructed types are flat;
- `Flat.eq_of_alternatives`: a flat type is determined by its members as a union;
- `alternatives_union`, `or_eq_oneOf`: the members of a union.
-/

namespace SchemaTypings.TypeScript.TypeExpr

/-! ## Construction -/

/-- The types that the constructors make. A union comes from `union` only. -/
inductive Built : TypeExpr → Prop
  | named (head : TypeName) {ps : List TypeExpr} (params : ∀ p ∈ ps, Built p) : Built (.named head ps)
  | object {ms : List (Member TypeExpr)} (values : ∀ m ∈ ms, Built m.value) : Built (.object ms)
  | function {ps : List (Member TypeExpr)} {r : TypeExpr} (params : ∀ p ∈ ps, Built p.value) (result : Built r) :
    Built (.function ps r)
  | union {ts : List TypeExpr} (members : ∀ t ∈ ts, Built t) : Built (.union ts)

/-- A union of two types is constructed if they are. -/
theorem Built.or {s t : TypeExpr} (hs : Built s) (ht : Built t) : Built (s.or t) :=
  .union (by simp [hs, ht])

/-! ## The invariant of unions -/

/-- Every union in the type has at least two members, each once and none of them a union. -/
inductive Flat : TypeExpr → Prop
  | named (head : TypeName) {ps : List TypeExpr} (params : ∀ p ∈ ps, Flat p) : Flat (.named head ps)
  | object {ms : List (Member TypeExpr)} (values : ∀ m ∈ ms, Flat m.value) : Flat (.object ms)
  | function {ps : List (Member TypeExpr)} {r : TypeExpr} (params : ∀ p ∈ ps, Flat p.value) (result : Flat r) :
    Flat (.function ps r)
  | oneOf {ts : List TypeExpr} (members : ∀ t ∈ ts, Flat t) (single : ∀ t ∈ ts, t.alternatives = [t])
    (distinct : ts.Nodup) (several : 2 ≤ ts.length) : Flat (.oneOf ts)

theorem flat_null : Flat null := .named _ nofun

/-- A union is not its own only member. -/
theorem oneOf_not_single {ts : List TypeExpr} : (TypeExpr.oneOf ts).alternatives ≠ [.oneOf ts] := by
  intro h
  have size := congrArg sizeOf h
  simp [alternatives] at size
  omega

/-- The members of a flat type are flat and no unions. -/
theorem Flat.alternatives {t a : TypeExpr} (h : Flat t) (ha : a ∈ t.alternatives) : Flat a ∧ a.alternatives = [a] := by
  cases h with
  | oneOf members single distinct several => exact ⟨members a ha, single a ha⟩
  | named head params => obtain rfl := List.mem_singleton.1 ha; exact ⟨.named head params, rfl⟩
  | object values => obtain rfl := List.mem_singleton.1 ha; exact ⟨.object values, rfl⟩
  | function params result => obtain rfl := List.mem_singleton.1 ha; exact ⟨.function params result, rfl⟩

theorem Flat.nodup_alternatives {t : TypeExpr} (h : Flat t) : t.alternatives.Nodup := by
  cases h with
  | oneOf _ _ distinct _ => exact distinct
  | _ => exact List.nodup_singleton _

/-- A union is `never`, or one of the members of the given types, or a union of several of them. -/
theorem union_cases {Q : TypeExpr → Prop} {ts : List TypeExpr} (never : Q never)
    (one : ∀ a ∈ ts.flatMap alternatives, Q a)
    (oneOf : ∀ as : List TypeExpr, as.Nodup → 2 ≤ as.length → (∀ a ∈ as, a ∈ ts.flatMap alternatives) → Q (.oneOf as)) :
    Q (union ts) := by
  have members : ∀ a ∈ (ts.flatMap alternatives).eraseDups, a ∈ ts.flatMap alternatives :=
    fun a => List.mem_eraseDups.1
  have distinct := nodup_eraseDups (ts.flatMap alternatives)
  unfold union
  match (ts.flatMap alternatives).eraseDups, members, distinct with
  | [], _, _ => exact never
  | [a], members, _ => exact one a (members a List.mem_cons_self)
  | a :: b :: as, members, distinct => exact oneOf _ distinct (by simp) members

/-- A union of flat types is flat. -/
theorem Flat.union {ts : List TypeExpr} (h : ∀ t ∈ ts, Flat t) : Flat (.union ts) := by
  have parts : ∀ a ∈ ts.flatMap TypeExpr.alternatives, Flat a ∧ a.alternatives = [a] := by
    intro a ha
    obtain ⟨t, ht, ha⟩ := List.mem_flatMap.1 ha
    exact (h t ht).alternatives ha
  apply union_cases
  · exact .named _ (by simp)
  · exact fun a ha => (parts a ha).1
  · intro as distinct several members
    exact .oneOf (fun a ha => (parts a (members a ha)).1) (fun a ha => (parts a (members a ha)).2) distinct several

/-- Constructed types are flat. -/
theorem Built.flat {t : TypeExpr} (h : Built t) : Flat t := by
  induction h with
  | named head _ ih => exact .named head ih
  | object _ ih => exact .object ih
  | function _ _ ihp ihr => exact .function ihp ihr
  | union _ ih => exact .union ih

/-- A flat type has members as a union. -/
theorem Flat.alternatives_ne_nil {t : TypeExpr} (h : Flat t) : t.alternatives ≠ [] := by
  cases h with
  | oneOf _ _ _ several =>
    rintro (rfl : _ = [])
    exact absurd several (by simp)
  | _ => nofun

/-- A flat type is made up of its members as a union in one way only. -/
theorem Flat.eq_of_alternatives {s t : TypeExpr} (hs : Flat s) (ht : Flat t) (h : s.alternatives = t.alternatives) :
    s = t := by
  cases hs with
  | oneOf _ _ _ several =>
    cases ht with
    | oneOf => exact congrArg _ h
    | _ =>
      obtain rfl : _ = [_] := h
      exact absurd several (by simp)
  | _ =>
    cases ht with
    | oneOf _ _ _ several =>
      obtain rfl : [_] = _ := h
      exact absurd several (by simp)
    | _ => exact List.singleton_inj.1 h

/-- The members of a union are the members of the given types, each once. -/
theorem alternatives_union {ts : List TypeExpr} (flat : ∀ t ∈ ts, Flat t) (some : ts ≠ []) :
    (union ts).alternatives = (ts.flatMap alternatives).eraseDups := by
  have single : ∀ a ∈ (ts.flatMap alternatives).eraseDups, a.alternatives = [a] := by
    intro a ha
    obtain ⟨t, ht, ha⟩ := List.mem_flatMap.1 (List.mem_eraseDups.1 ha)
    exact ((flat t ht).alternatives ha).2
  have some : (ts.flatMap alternatives).eraseDups ≠ [] := by
    obtain ⟨t, ts', rfl⟩ := List.exists_cons_of_ne_nil some
    obtain ⟨a, as, members⟩ := List.exists_cons_of_ne_nil (flat t List.mem_cons_self).alternatives_ne_nil
    refine List.ne_nil_of_mem (a := a) (List.mem_eraseDups.2 ?_)
    simp [members]
  unfold union
  match (ts.flatMap alternatives).eraseDups, single, some with
  | [a], single, _ => exact single a List.mem_cons_self
  | _ :: _ :: _, _, _ => rfl

/-- A further type joins the members of a type. -/
theorem or_eq_oneOf {s t : TypeExpr} (some : s.alternatives ≠ []) (single : t.alternatives = [t])
    (distinct : (s.alternatives ++ [t]).Nodup) : s.or t = .oneOf (s.alternatives ++ [t]) := by
  have members : [s, t].flatMap alternatives = s.alternatives ++ [t] := by simp [single]
  unfold or union
  rw [members, eraseDups_of_nodup distinct]
  match s.alternatives, some with
  | [_], _ => rfl
  | _ :: _ :: _, _ => rfl

/-- A union has no more members than it is made of, apart from unions. -/
theorem length_alternatives_union_le {ts : List TypeExpr} (flat : ∀ t ∈ ts, Flat t)
    (single : ∀ t ∈ ts, t.alternatives = [t]) (some : ts ≠ []) : (union ts).alternatives.length ≤ ts.length := by
  rw [alternatives_union flat some, List.flatMap_congr single, List.flatMap_singleton']
  exact ((nodup_eraseDups ts).subperm fun t => List.mem_eraseDups.1).length_le

end SchemaTypings.TypeScript.TypeExpr

import SchemaTypings.Proofs.Outcome
import SchemaTypings.Proofs.Unions

/-!
# Modifiers

A written type, the reference that it resolves to, and the type that is generated for it have the same modifiers.

- `TypeRef.written`: the written type behind a reference. None is lost and none is confused with another
  (`written_reference`);
- `TypeSyntax.mirrored base`: the generated type by recursion over the written one, for a type `base` of its name. A
  list is an `Array`, and without an exclamation mark `null` is added. This is what projection makes
  (`project_reference`);
- `mirrored_injective`: written types with the same name have different mirrors, unless `base` admits `null` itself;
- `modifiers_mirrored`: all of this for the types that a scope and a projection make of written types.
-/

namespace SchemaTypings

open TypeScript

/-! ## References -/

/-- The written type that a reference resolves. -/
def TypeRef.written (r : TypeRef) : Sdl.TypeSyntax :=
  r.layers.foldl (fun item layer => .list item (layer == .nonNull)) (.named r.name (!r.innerNullable))

/-- Every reference is one that a written type resolves to. -/
theorem TypeRef.reference_written (r : TypeRef) : r.written.reference r.category = r := by
  obtain ⟨name, c, inner, layers⟩ := r
  induction layers using List.reverseRecOn with
  | nil => cases inner <;> rfl
  | append_singleton layers layer ih =>
    have item : (TypeRef.mk name c inner layers).written.reference c = ⟨name, c, inner, layers⟩ := ih
    have list : (TypeRef.mk name c inner (layers ++ [layer])).written =
        .list (TypeRef.mk name c inner layers).written (layer == .nonNull) := by
      unfold written
      rw [List.foldl_append]
      rfl
    rw [list, Sdl.TypeSyntax.reference, item]
    cases layer <;> rfl

namespace Sdl.TypeSyntax

variable {c : Category}

theorem written_reference : ∀ t : TypeSyntax, (t.reference c).written = t
  | .named n nonNull => by cases nonNull <;> rfl
  | .list t nonNull => by
    have item : (t.reference c).written = t := written_reference t
    unfold TypeRef.written at item ⊢
    rw [reference, List.foldl_append, item]
    cases nonNull <;> rfl

/-- Whether a written type has an exclamation mark at its end. -/
def isNonNull : TypeSyntax → Bool
  | .named _ nonNull | .list _ nonNull => nonNull

theorem isNullable_reference (t : TypeSyntax) : (t.reference c).isNullable = !t.isNonNull := by
  cases t with
  | named n nonNull => rfl
  | list t nonNull =>
    unfold TypeRef.isNullable
    rw [reference, List.getLast?_concat]
    cases nonNull <;> rfl

/-! ## Mirrors -/

/-- The generated type for a written one, from a type for its name. -/
def mirrored (base : TypeExpr) : TypeSyntax → TypeExpr
  | .named _ nonNull => if nonNull then base else base.or .null
  | .list item nonNull =>
    if nonNull then .generic "Array" (item.mirrored base) else (TypeExpr.generic "Array" (item.mirrored base)).or .null

/-- The modifiers of a reference are those of the written type that it resolves. -/
theorem modified_reference (base : TypeExpr) : ∀ t : TypeSyntax,
    Projection.modified base (t.reference c) = t.mirrored base
  | .named _ nonNull => by cases nonNull <;> rfl
  | .list t nonNull => by
    have item : Projection.modified base (t.reference c) = t.mirrored base := modified_reference base t
    unfold Projection.modified at item ⊢
    rw [reference, List.foldl_append, item]
    cases nonNull <;> rfl

end Sdl.TypeSyntax

/-! ## Members of a mirror -/

namespace TypeScript.TypeExpr

theorem generic_ne_null {name : String} {t : TypeExpr} : generic name t ≠ null := by
  simp [generic, null, ident]

theorem mem_alternatives_or {s t a : TypeExpr} (hs : Flat s) (ht : Flat t) :
    a ∈ (s.or t).alternatives ↔ a ∈ s.alternatives ∨ a ∈ t.alternatives := by
  unfold or
  rw [alternatives_union (by simp [hs, ht]) (by simp), List.mem_eraseDups]
  simp

theorem Flat.or_null {t : TypeExpr} (h : Flat t) : Flat (t.or null) := .union (by simp [h, flat_null])

theorem Flat.generic {t : TypeExpr} (h : Flat t) (name : String) : Flat (.generic name t) := .named _ (by simp [h])

end TypeScript.TypeExpr

namespace Sdl.TypeSyntax

open TypeExpr

variable {base a : TypeExpr} (flat : Flat base)

include flat

theorem flat_mirrored : ∀ t : TypeSyntax, Flat (t.mirrored base)
  | .named _ nonNull => by
    cases nonNull
    · exact flat.or_null
    · exact flat
  | .list t nonNull => by
    have list : Flat (.generic "Array" (t.mirrored base)) := (flat_mirrored t).generic _
    cases nonNull
    · exact list.or_null
    · exact list

theorem mem_mirrored_named {n : String} {nonNull : Bool} : a ∈ (mirrored base (.named n nonNull)).alternatives ↔
    a ∈ base.alternatives ∨ nonNull = false ∧ a = null := by
  cases nonNull with
  | true => simp [mirrored]
  | false =>
    rw [mirrored, if_neg (by simp), mem_alternatives_or flat flat_null]
    simp [null, ident, alternatives]

theorem mem_mirrored_list {t : TypeSyntax} {nonNull : Bool} : a ∈ (mirrored base (.list t nonNull)).alternatives ↔
    a = .generic "Array" (t.mirrored base) ∨ nonNull = false ∧ a = null := by
  cases nonNull with
  | true => simp [mirrored, generic, alternatives]
  | false =>
    rw [mirrored, if_neg (by simp), mem_alternatives_or ((flat_mirrored flat t).generic _) flat_null]
    simp [null, ident, generic, alternatives]

/-- The mirror of a type admits `null` unless there is an exclamation mark at its end. -/
theorem null_mem_mirrored (bare : null ∉ base.alternatives) {t : TypeSyntax} :
    null ∈ (t.mirrored base).alternatives ↔ t.isNonNull = false := by
  cases t with
  | named n nonNull => simp [mem_mirrored_named flat, bare, isNonNull]
  | list t nonNull =>
    rw [mem_mirrored_list flat]
    simp [isNonNull, generic_ne_null.symm]

/-- Equal mirrors have the same end. -/
theorem isNonNull_eq (bare : null ∉ base.alternatives) {t t' : TypeSyntax} (same : t.mirrored base = t'.mirrored base) :
    t.isNonNull = t'.isNonNull := by
  have ends : t.isNonNull = false ↔ t'.isNonNull = false := by
    rw [← null_mem_mirrored flat bare, same, null_mem_mirrored flat bare]
  cases h : t'.isNonNull with
  | false => exact ends.2 h
  | true => simpa [h] using ends

theorem array_mem_mirrored {t : TypeSyntax} {nonNull : Bool} :
    .generic "Array" (t.mirrored base) ∈ (mirrored base (.list t nonNull)).alternatives :=
  (mem_mirrored_list flat).2 (.inl rfl)

/-- Lists with the same mirror are lists of items with the same mirror. -/
theorem mirrored_item_eq {t t' : TypeSyntax} {nonNull nonNull' : Bool}
    (same : mirrored base (.list t nonNull) = mirrored base (.list t' nonNull')) :
    t.mirrored base = t'.mirrored base := by
  have member : .generic "Array" (t.mirrored base) ∈ (mirrored base (.list t nonNull)).alternatives :=
    array_mem_mirrored flat
  rw [same, mem_mirrored_list flat] at member
  rcases member with array | ⟨-, null⟩
  · injection array with _ params
    injection params
  · exact absurd null generic_ne_null

variable (atoms : ∀ a ∈ base.alternatives, ∃ i, a = .ident i)

include atoms

/-- A list is not mirrored like a name. -/
theorem mirrored_list_ne {n : String} {t : TypeSyntax} {nonNull nonNull' : Bool} :
    mirrored base (.list t nonNull) ≠ mirrored base (.named n nonNull') := by
  intro same
  have member : .generic "Array" (t.mirrored base) ∈ (mirrored base (.list t nonNull)).alternatives :=
    array_mem_mirrored flat
  rw [same, mem_mirrored_named flat] at member
  rcases member with member | ⟨-, null⟩
  · obtain ⟨i, atom⟩ := atoms _ member
    cases atom
  · exact generic_ne_null null

/-- Written types with the same name and the same mirror are the same. -/
theorem mirrored_injective (bare : null ∉ base.alternatives) {t t' : TypeSyntax} (names : t.name = t'.name)
    (same : t.mirrored base = t'.mirrored base) : t = t' := by
  induction t generalizing t' with
  | named n nonNull =>
    cases t' with
    | named n' nonNull' =>
      obtain rfl : n = n' := names
      obtain rfl : nonNull = nonNull' := isNonNull_eq flat bare same
      rfl
    | list t' nonNull' => exact absurd same.symm (mirrored_list_ne flat atoms)
  | list t nonNull ih =>
    cases t' with
    | named n' nonNull' => exact absurd same (mirrored_list_ne flat atoms)
    | list t' nonNull' =>
      obtain rfl : nonNull = nonNull' := isNonNull_eq flat bare same
      have items : t = t' := ih names (mirrored_item_eq flat same)
      rw [items]

end Sdl.TypeSyntax

/-! ## The types of names -/

namespace Projection

open TypeExpr

variable {p : Projection}

/-- The type of a name is a union of identifiers. -/
theorem exists_union_of_namedType {n : String} {c : Category} {t : TypeExpr} (h : p.namedType n c = .ok t) :
    ∃ is : List String, t = .union (is.map .ident) := by
  have single : ∀ i : String, ∃ is : List String, TypeExpr.ident i = .union (is.map .ident) := fun i => ⟨[i], rfl⟩
  have several : ∀ os, p.objectTypes os = .ok t → ∃ is : List String, t = .union (is.map .ident) := by
    intro os h
    obtain ⟨ts, hts, h⟩ := bind_eq_ok.1 h
    cases h
    refine ⟨os.map fun o => p.models.valueName p.roots o.name, ?_⟩
    rw [List.map_map, mapM_objectType_eq hts]
    rfl
  cases c with
  | scalar =>
    cases h
    unfold scalarType
    split
    case h_6 => split <;> exact single _
    all_goals exact single _
  | object =>
    rw [(objectType_eq_ok h).2]
    exact single _
  | interface =>
    obtain ⟨os, -, h⟩ := bind_eq_ok.1 h
    exact several os h
  | union =>
    obtain ⟨os, -, h⟩ := bind_eq_ok.1 h
    exact several os h
  | enum => cases h; exact single _
  | input => cases h; exact single _

theorem flat_namedType {n : String} {c : Category} {t : TypeExpr} (h : p.namedType n c = .ok t) : Flat t := by
  obtain ⟨is, rfl⟩ := exists_union_of_namedType h
  refine .union fun t ht => ?_
  obtain ⟨i, -, rfl⟩ := List.mem_map.1 ht
  exact .named _ nofun

theorem atoms_namedType {n : String} {c : Category} {t : TypeExpr} (h : p.namedType n c = .ok t) :
    ∀ a ∈ t.alternatives, ∃ i, a = .ident i := by
  obtain ⟨is, rfl⟩ := exists_union_of_namedType h
  have atoms : ∀ a ∈ (is.map TypeExpr.ident).flatMap alternatives, ∃ i, a = .ident i := by
    intro a ha
    obtain ⟨t, ht, ha⟩ := List.mem_flatMap.1 ha
    obtain ⟨i, -, rfl⟩ := List.mem_map.1 ht
    exact ⟨i, List.mem_singleton.1 ha⟩
  refine union_cases (Q := fun t => ∀ a ∈ t.alternatives, ∃ i, a = .ident i) ?_ ?_ ?_
  · intro a ha
    exact ⟨"never", List.mem_singleton.1 ha⟩
  · intro t ht a ha
    obtain ⟨i, rfl⟩ := atoms t ht
    exact ⟨i, List.mem_singleton.1 ha⟩
  · intro as _ _ members a ha
    exact atoms a (members a ha)

/-- A reference is projected like the written type that it resolves. -/
theorem project_reference {t : Sdl.TypeSyntax} {c : Category} {base : TypeExpr}
    (named : p.namedType t.name c = .ok base) : p.project (t.reference c) = .ok (t.mirrored base) := by
  unfold project
  rw [Sdl.TypeSyntax.reference_name, Sdl.TypeSyntax.reference_category, named, ok_bind,
    Sdl.TypeSyntax.modified_reference]
  rfl

/-- The projection of a reference admits `null` if its outermost level does, unless the type of the name admits it. -/
theorem null_mem_project {r : TypeRef} {base t : TypeExpr} (projected : p.project r = .ok t)
    (named : p.namedType r.name r.category = .ok base) (bare : null ∉ base.alternatives) :
    null ∈ t.alternatives ↔ r.isNullable = true := by
  have name : r.written.name = r.name := by
    rw [← Sdl.TypeSyntax.reference_name r.category, r.reference_written]
  have mirror := project_reference (name.symm ▸ named)
  rw [r.reference_written, projected] at mirror
  obtain rfl := Except.ok.inj mirror
  rw [Sdl.TypeSyntax.null_mem_mirrored (flat_namedType named) bare, ← Bool.not_eq_true',
    ← Sdl.TypeSyntax.isNullable_reference (c := r.category), r.reference_written]

end Projection

/-! ## Written types and what is generated for them -/

/-- A written type `t` resolves to the reference `r`, and `e` is generated for it where `base` stands for its name. All
three have the same modifiers: the written type can be told from the reference, and from the generated type if its name
is known. They also agree on whether `null` is admitted, and so do the members that are generated for arguments and
fields of that type. -/
structure Mirrors (scope : Sdl.Scope) (p : Projection) (t : Sdl.TypeSyntax) (r : TypeRef) (base e : TypeExpr) :
    Prop where
  written : r.written = t
  unconfused : ∀ (scope' : Sdl.Scope) (t' : Sdl.TypeSyntax), scope'.typeRef t' = .ok r → t' = t
  mirrored : e = t.mirrored base
  distinct : ∀ (t' : Sdl.TypeSyntax) (r' : TypeRef), t'.name = t.name → scope.typeRef t' = .ok r' →
    p.project r' = .ok e → t' = t
  nullable : r.isNullable = true ↔ t.isNonNull = false
  admits : TypeExpr.null ∈ e.alternatives ↔ t.isNonNull = false
  members : ∀ as ms, p.inputMembers as = .ok ms → List.Forall₂ (fun a m => a.type = r →
    m.value = e ∧ (m.optional = true ↔ TypeExpr.null ∈ m.value.alternatives)) as ms

/-- Projection mirrors the modifiers of written types, unless the type of the name admits `null` itself. -/
theorem modifiers_mirrored {scope : Sdl.Scope} {p : Projection} {t : Sdl.TypeSyntax} {r : TypeRef} {base e : TypeExpr}
    (resolved : scope.typeRef t = .ok r) (projected : p.project r = .ok e)
    (named : p.namedType r.name r.category = .ok base) (bare : TypeExpr.null ∉ base.alternatives) :
    Mirrors scope p t r base e := by
  obtain ⟨c, hc, rfl⟩ := Sdl.typeRef_eq_ok.1 resolved
  rw [Sdl.TypeSyntax.reference_name, Sdl.TypeSyntax.reference_category] at named
  obtain rfl : t.mirrored base = e := Except.ok.inj ((Projection.project_reference named).symm.trans projected)
  have flat := Projection.flat_namedType named
  have admits := Sdl.TypeSyntax.null_mem_mirrored flat bare (t := t)
  have nullable : (t.reference c).isNullable = true ↔ t.isNonNull = false := by
    rw [Sdl.TypeSyntax.isNullable_reference, Bool.not_eq_true']
  constructor
  · exact t.written_reference
  · intro scope' t' same
    obtain ⟨c', -, same⟩ := Sdl.typeRef_eq_ok.1 same
    rw [← t'.written_reference, ← same, t.written_reference]
  · rfl
  · intro t' r' names resolved' projected'
    obtain ⟨c', hc', rfl⟩ := Sdl.typeRef_eq_ok.1 resolved'
    rw [names, hc] at hc'
    cases hc'
    rw [Projection.project_reference (names ▸ named)] at projected'
    have atoms := Projection.atoms_namedType named
    exact Sdl.TypeSyntax.mirrored_injective flat atoms bare names (Except.ok.inj projected')
  · exact nullable
  · exact admits
  · intro as ms generated
    refine (forall₂_inputMembers generated).imp fun a m ⟨value, optional⟩ type => ?_
    rw [type] at value optional
    have same : m.value = t.mirrored base := Except.ok.inj (value.symm.trans projected)
    rw [optional, same]
    exact ⟨rfl, nullable.trans admits.symm⟩

/-- Books and maps, the items of `library`. -/
def libraryItems : TypeExpr := .oneOf [.ident "Book", .ident "Map"]

theorem modifiers_mirrored_library : ∃ a, Associations.build librarySchema = .ok a ∧
    Mirrors (.ofTypes library.types) (librarySource.projection a) (.list (.list (.named "Item" true) false) true)
      ⟨"Item", .interface, false, [.nullable, .nonNull]⟩ libraryItems
      (.generic "Array" (.oneOf [.generic "Array" libraryItems, .null])) := by
  obtain ⟨a, ha⟩ := exists_build (Sdl.schema_consistent library_accepted)
  have u : librarySchema.Unambiguous := Sdl.schema_unambiguous library_accepted (by decide)
  have item : (⟨"Item", [⟨"added", ⟨"Date", .scalar, false, []⟩, []⟩], ["Book", "Map"]⟩ : InterfaceType) ∈
      librarySchema.interfaces := by decide
  have named : (librarySource.projection a).namedType "Item" .interface = .ok libraryItems := by
    have items : (TypeExpr.ident "Book").or (.ident "Map") = libraryItems :=
      TypeExpr.or_eq_oneOf (List.cons_ne_nil _ _) rfl (by simp [TypeExpr.alternatives, TypeExpr.ident])
    change (a.implementors "Item" >>= (librarySource.projection a).objectTypes) = _
    rw [u.implementors_eq (tables_of_build ha) item, ← items]
    rfl
  have lists : (TypeExpr.generic "Array" libraryItems).or .null = .oneOf [.generic "Array" libraryItems, .null] :=
    TypeExpr.or_eq_oneOf (List.cons_ne_nil _ _) rfl (by simp [TypeExpr.alternatives, TypeExpr.generic, TypeExpr.null,
      TypeExpr.ident])
  have projected : (librarySource.projection a).project ⟨"Item", .interface, false, [.nullable, .nonNull]⟩ =
      .ok (.generic "Array" (.oneOf [.generic "Array" libraryItems, .null])) := by
    rw [← lists]
    exact Projection.project_reference (t := .list (.list (.named "Item" true) false) true) named
  have bare : TypeExpr.null ∉ libraryItems.alternatives := by
    simp [libraryItems, TypeExpr.alternatives, TypeExpr.null, TypeExpr.ident]
  exact ⟨a, ha, modifiers_mirrored (by decide) projected named bare⟩

end SchemaTypings

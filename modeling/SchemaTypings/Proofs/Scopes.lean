import SchemaTypings.Proofs.Consistency

/-!
# Two scopes

How the resolution of a type definition depends on the scope: through the categories of the names in it.

- `definition_persists`: if the categories that one scope finds are found by another one, so is whatever a definition
  resolves to;
- `category?_perm`: the order of definitions with distinct names does not matter to the categories of names;
- `category?_insert`: a further definition does not matter to the categories of other names.
-/

namespace SchemaTypings.Sdl

/-! ## Resolution in both scopes -/

section Scopes

variable {P : Fault → Prop} {scope scope' : Scope}
  (categories : ∀ n, Persists P (scope.category n) (scope'.category n))

include categories

theorem require_persists (expected : Category) (otherwise : String → Fault) (n : String) :
    Persists P (scope.require expected otherwise n) (scope'.require expected otherwise n) :=
  (categories n).bind_same _

theorem typeRef_persists (t : TypeSyntax) : Persists P (scope.typeRef t) (scope'.typeRef t) := by
  rw [typeRef_eq, typeRef_eq]
  exact (categories t.name).bind_same _

theorem inputs_persists (is : List InputSyntax) : Persists P (scope.inputs is) (scope'.inputs is) :=
  .mapM fun i _ => (typeRef_persists categories i.type).bind_same _

theorem fields_persists (fs : List FieldSyntax) : Persists P (scope.fields fs) (scope'.fields fs) :=
  .mapM fun f _ => (typeRef_persists categories f.type).bind fun _ _ =>
    (inputs_persists categories f.arguments).bind_same _

/-- What a type definition resolves to depends on the categories of names only. -/
theorem definition_persists (t : TypeDefinition) : Persists P (scope.definition t) (scope'.definition t) := by
  cases t with
  | scalar n => exact .refl _
  | object n is fs =>
    refine (Persists.forM fun i _ => require_persists categories _ _ i).bind fun _ _ => ?_
    exact (fields_persists categories fs).bind_same _
  | interface n is fs => exact (fields_persists categories fs).bind_same _
  | union n ms => exact (Persists.forM fun m _ => require_persists categories _ _ m).bind_same _
  | enum n vs => exact .refl _
  | input n fs => exact (inputs_persists categories fs).bind_same _

end Scopes

theorem definition_congr {scope scope' : Scope} (same : scope'.category? = scope.category?) :
    scope'.definition = scope.definition := by
  have categories : ∀ n, Persists (fun _ => True) (scope'.category n) (scope.category n) := fun n =>
    .of_eq (by unfold Scope.category; rw [same])
  exact funext fun t => (definition_persists categories t).eq fun _ => trivial

/-! ## Categories of names -/

/-- The categories of names do not depend on the order in which they are defined. -/
theorem category?_perm {ts ts' : List TypeDefinition} (perm : ts'.Perm ts)
    (distinct : (ts.map TypeDefinition.name).Nodup) :
    (Scope.ofTypes ts').category? = (Scope.ofTypes ts).category? := by
  have keys : ((ts.map fun t => (t.name, t.category)).reverse.map Prod.fst).Nodup := by
    simpa [List.map_reverse, List.map_map, Function.comp_def] using distinct
  have entries : (ts'.map fun t => (t.name, t.category)).reverse.Perm
      (ts.map fun t => (t.name, t.category)).reverse :=
    (List.reverse_perm _).trans ((perm.map _).trans (List.reverse_perm _).symm)
  -- the built-in scalars stand behind the definitions in both scopes
  funext n
  unfold Scope.category? Scope.ofTypes
  rw [List.lookup_append, List.lookup_append, lookup_perm entries keys]

/-- A further definition leaves all other names their categories. -/
theorem category?_insert {front back : List TypeDefinition} {t : TypeDefinition} {n : String} (other : n ≠ t.name) :
    (Scope.ofTypes (front ++ t :: back)).category? n = (Scope.ofTypes (front ++ back)).category? n := by
  simp [Scope.category?, Scope.ofTypes, List.lookup_append, List.lookup_cons, beq_eq_false_iff_ne.2 other]

/-- A name with a category is defined or that of a built-in scalar. -/
theorem known_of_category? {ts : List TypeDefinition} {n : String} {c : Category}
    (h : (Scope.ofTypes ts).category? n = some c) : n ∈ ts.map TypeDefinition.name ∨ n ∈ builtinScalars := by
  have entry := mem_of_lookup h
  simp only [Scope.ofTypes, List.mem_append, List.mem_reverse, List.mem_map, Prod.mk.injEq] at entry
  rcases entry with ⟨t, ht, rfl, -⟩ | ⟨m, hm, rfl, -⟩
  · exact .inl (List.mem_map_of_mem ht)
  · exact .inr hm

end SchemaTypings.Sdl

import SchemaTypings.Proofs.AbstractTypes

/-!
# Names that a unit binds

A unit binds a name by importing it or by declaring it, and in TypeScript each name may be bound once. Generation only
compares the declarations of an entity with one another. The names that it imports, and the placeholder that stands in
for a missing context type, are chosen elsewhere and compared with nothing.

- `EntityUnit.bound`: the names that a unit binds;
- `Source.Separate`: the names that come from different places are different;
- `units_bind_once_iff`: a generated entity unit binds no name twice if and only if its names are separate;
- `contextual_binds_twice`: a unit in which they are not.
-/

namespace SchemaTypings

open TypeScript

/-- The names that a unit binds: those that it imports and those that it declares. -/
def EntityUnit.bound (u : EntityUnit) : List String := u.imports.flatMap Import.names ++ u.declaredNames

/-- The names that the unit of an entity binds whatever its types are called: those of the library, and the placeholder
where there is no context type. -/
def Source.fixedNames (src : Source) (e : Entity) : List String :=
  (EntityUnit.libraryImport e.hasTypeOf).names ++ if src.context.isNone then [contextPlaceholder] else []

/-- The names that the unit of an entity takes from different places are different. Models and the context type may be
called anything; enums and input types have names of their own, but may have one of the fixed names; an enum may also be
called like something that is declared for a field. -/
structure Source.Separate (src : Source) (e : Entity) : Prop where
  modules : ∀ m m' n, src.Imports e m n → src.Imports e m' n → m = m'
  imports : ∀ m n, src.Imports e m n →
    n ∉ src.fixedNames e ∧ ¬src.schema.RefersToEnum e n ∧ ¬src.schema.Leads e n ∧ n ∉ src.ownNames e
  enums : ∀ n, src.schema.RefersToEnum e n → n ∉ src.fixedNames e ∧ n ∉ src.ownNames e
  inputs : ∀ n, src.schema.Leads e n → n ∉ src.fixedNames e

/-! ## Names that are always different -/

/-- The last character tells the names that are declared for fields and the entity itself from the fixed ones. -/
theorem ownNames_not_fixed {src : Source} {e : Entity} {n : String} (h : n ∈ src.ownNames e) :
    n ∉ src.fixedNames e := by
  have own : n.toList.getLast? = some 's' ∨ n.toList.getLast? = some 'r' := by
    simp only [Source.ownNames, List.mem_append, List.mem_map, List.mem_singleton] at h
    rcases h with ((⟨f, -, rfl⟩ | ⟨f, -, rfl⟩) | rfl) | h
    · exact .inl (by simp [Field.argumentsName])
    · exact .inr (by simp [Field.resolverName])
    · exact .inl (by simp [aggregateName])
    · split at h
      · rw [List.mem_singleton.1 h]
        exact .inl (by simp [defaultsName])
      · cases h
  have fixed : ∀ m ∈ src.fixedNames e, m ∈ [resolveInfo, isTypeOf, contextPlaceholder] := by
    unfold Source.fixedNames
    cases e.hasTypeOf <;> cases src.context.isNone <;> decide
  intro hn
  have known := fixed n hn
  simp only [List.mem_cons, List.not_mem_nil, or_false] at known
  rcases known with rfl | rfl | rfl <;> rcases own with own | own <;> exact absurd own (by decide)

theorem nodup_fixedNames (src : Source) (e : Entity) : (src.fixedNames e).Nodup := by
  unfold Source.fixedNames
  cases e.hasTypeOf <;> cases src.context.isNone <;> decide

/-- An enum that an entity refers to is no input type that it leads to. -/
theorem not_leads_of_refersToEnum {s : Schema} (u : s.Unambiguous) (c : s.Consistent) {e : Entity}
    (he : e ∈ s.entities) {n : String} (h : s.RefersToEnum e n) : ¬s.Leads e n := by
  intro leads
  have input : ∃ r ∈ s.references, r.category = .input ∧ r.name = n := by
    cases leads with
    | argument hb hc =>
      obtain ⟨f, hf, hb⟩ := List.mem_flatMap.1 hb
      rw [u.walkedFields_eq he] at hf
      exact ⟨_, references_of_entity he hf (List.mem_cons_of_mem _ (List.mem_map_of_mem hb)), hc, rfl⟩
    | field _ hi hb hc => exact ⟨_, Schema.references_of_input (mem_of_lastOf hi).1 hb, hc, rfl⟩
  obtain ⟨r, hr, hc, rfl⟩ := Schema.exists_enum_reference h
  obtain ⟨r', hr', hc', name⟩ := input
  have category := u.category_unique c hr' hr name
  rw [hc, hc'] at category
  cases category

/-! ## Units without repeated names -/

theorem names_enumsImport (enums : List String) : (EntityUnit.enumsImport enums).flatMap Import.names = enums := by
  unfold EntityUnit.enumsImport
  cases enums <;> simp

section Units

variable {d : Sdl.Document} {src : Source} (accepted : d.schema = .ok src.schema)
  (distinct : (d.types.map Sdl.TypeDefinition.name).Nodup) {a : Associations} (t : Tables src.schema a) {e : Entity}
  (he : e ∈ src.schema.entities)

include accepted distinct t he

/-- The names that a unit binds, by the places that they come from. -/
theorem bound_perm {v : EntityUnit} (hv : src.entityUnit a e = .ok v) :
    ∃ (x : EntityParts (src.projection a) src.contextType e) (g : ImportGroups), src.importGroups a e = .ok g ∧
      v.bound.Perm (src.fixedNames e ++ (g.groups.entries.flatMap Prod.snd ++
        (x.enums ++ (x.inputs.map InputType.name ++ src.ownNames e)))) := by
  obtain ⟨x, g, hg, rfl⟩ := entityUnit_eq_ok hv
  refine ⟨x, g, hg, List.perm_iff_count.2 fun n => ?_⟩
  have groups : (g.groups.entries.map fun p => (⟨p.2, p.1⟩ : Import)).flatMap Import.names =
      g.groups.entries.flatMap Prod.snd := by rw [List.flatMap_map]
  simp only [EntityParts.unit, EntityUnit.bound, EntityUnit.declaredNames, Source.fixedNames, List.flatMap_append,
    List.flatMap_cons, groups, names_enumsImport, x.names_assemble, x.hasTypeOf_eq accepted distinct t he,
    Projection.declaredNames, Source.ownNames_eq, List.count_append]
  omega

/-- A unit binds no name twice if and only if its names are separate. -/
theorem nodup_bound_iff {v : EntityUnit} (hv : src.entityUnit a e = .ok v) : v.bound.Nodup ↔ src.Separate e := by
  have c : src.schema.Consistent := Sdl.schema_consistent accepted
  have u : src.schema.Unambiguous := Sdl.schema_unambiguous accepted distinct
  obtain ⟨x, g, hg, perm⟩ := bound_perm accepted distinct t he hv
  obtain ⟨groups, imports⟩ := importGroups_eq u c t he hg
  obtain ⟨is, his, -, -, inputs⟩ := inputTypes_eq (p := src.projection a) t he
  cases his.symm.trans x.inputs_eq
  obtain ⟨es, hes, nodup_enums, enums⟩ := enums_eq (p := src.projection a) t he x.inputs_eq
  cases hes.symm.trans x.enums_eq
  have imported : ∀ n, n ∈ g.groups.entries.flatMap Prod.snd ↔ ∃ m, src.Imports e m n := by
    intro n
    simp only [← imports, ImportGroups.mem_namesOf_iff groups, List.mem_flatMap, Prod.exists]
  have declared : (x.inputs.map InputType.name ++ src.ownNames e).Nodup := by
    have clear := (of_entityUnit_eq_ok t he hv).1
    rw [← Source.ownNames_eq a]
    exact (Source.nodup_declaredNames_iff t he x.inputs_eq).2 clear
  -- now every pair of places is one condition, and `Separate` names those that are not met anyway
  rw [perm.nodup_iff]
  simp only [List.nodup_append', List.disjoint_append_right] at declared ⊢
  simp only [List.disjoint_left, imported, inputs, enums, groups.nodup_iff, imports, forall_exists_index] at declared ⊢
  constructor
  · rintro ⟨-, ⟨single, ⟨-, -, -, enums_own⟩, imports_enums, imports_inputs, imports_own⟩,
      fixed_imports, fixed_enums, fixed_inputs, -⟩
    refine ⟨single, fun m n hn => ?_, fun n hn => ⟨fun fixed => fixed_enums fixed hn, enums_own hn⟩,
      fun n hn fixed => fixed_inputs fixed hn⟩
    exact ⟨fun fixed => fixed_imports fixed ⟨m, hn⟩, imports_enums m hn, imports_inputs m hn, imports_own m hn⟩
  · intro h
    have enums_inputs : ∀ ⦃n⦄, src.schema.RefersToEnum e n → ¬src.schema.Leads e n :=
      fun n hn => not_leads_of_refersToEnum u c he hn
    refine ⟨nodup_fixedNames src e, ⟨h.modules, ⟨nodup_enums, declared, enums_inputs, ?_⟩, ?_, ?_, ?_⟩, ?_, ?_, ?_, ?_⟩
    · exact fun n hn => (h.enums n hn).2
    · exact fun n m hn => (h.imports m n hn).2.1
    · exact fun n m hn => (h.imports m n hn).2.2.1
    · exact fun n m hn => (h.imports m n hn).2.2.2
    · rintro n fixed ⟨m, hn⟩
      exact (h.imports m n hn).1 fixed
    · exact fun n fixed hn => (h.enums n hn).1 fixed
    · exact fun n fixed hn => h.inputs n hn fixed
    · exact fun n fixed own => ownNames_not_fixed own fixed

end Units

/-- A generated entity unit binds no name twice if and only if the names that it takes from different places are
different. -/
theorem units_bind_once_iff {d : Sdl.Document} {src : Source} (accepted : d.schema = .ok src.schema)
    (distinct : (d.types.map Sdl.TypeDefinition.name).Nodup) {format : Formatter} {us : List OutputUnit}
    (generated : src.generate format = .ok us) :
    src.EachUnit format us fun e u => u.bound.Nodup ↔ src.Separate e :=
  eachUnit_of_generate generated fun _ ha _ he _ hv => nodup_bound_iff accepted distinct (tables_of_build ha) he hv

theorem units_bind_once_iff_library : ∃ us, librarySource.generate .passthrough = .ok us ∧
    librarySource.EachUnit .passthrough us fun e u => u.bound.Nodup ↔ librarySource.Separate e := by
  obtain ⟨us, generated⟩ := library_generates
  exact ⟨us, generated, units_bind_once_iff library_accepted (by decide) generated⟩

/-- A document with an input type that is called like the placeholder for the context type. -/
def contextual : Sdl.Document := ⟨[
  .definition (.input "Context" [⟨"a", .named "Int" false⟩]),
  .definition (.object "Query" [] [⟨"f", .named "Int" false, [⟨"c", .named "Context" false⟩]⟩])]⟩

/-- The query of `contextual`. -/
def contextualQuery : ObjectType :=
  ⟨"Query", [⟨"f", ⟨"Int", .scalar, true, []⟩, [⟨"c", ⟨"Context", .input, true, []⟩⟩]⟩], []⟩

/-- The schema of `contextual`, without any models or context type. -/
def contextualSource : Source :=
  ⟨⟨[.input ⟨"Context", [⟨"a", ⟨"Int", .scalar, true, []⟩⟩]⟩, .object contextualQuery], .standard⟩, .empty, none, .off⟩

/-- A unit is generated for the query of `contextual`, although it declares both the placeholder and the input type. -/
theorem contextual_binds_twice : contextual.schema = .ok contextualSource.schema ∧
    (contextual.types.map Sdl.TypeDefinition.name).Nodup ∧ ∃ us, contextualSource.generate .passthrough = .ok us ∧
      ¬contextualSource.EachUnit .passthrough us fun _ u => u.bound.Nodup := by
  have accepted : contextual.schema = .ok contextualSource.schema := by decide
  have distinct : (contextual.types.map Sdl.TypeDefinition.name).Nodup := by decide
  have generates : ∃ us, contextualSource.generate .passthrough = .ok us :=
    exists_generate (Sdl.schema_consistent accepted) .passthrough (by decide) (by decide +kernel)
  obtain ⟨us, generated⟩ := generates
  refine ⟨accepted, distinct, us, generated, fun once => ?_⟩
  have query : Entity.object contextualQuery ∈ contextualSource.schema.entities := by decide
  obtain ⟨a, v, ha, hv, nodup⟩ := once.exists_unit query
  have separate := (nodup_bound_iff accepted distinct (tables_of_build ha) query hv).1 nodup
  have leads : contextualSource.schema.Leads (.object contextualQuery) "Context" :=
    Reaches.argument (a := ⟨"c", ⟨"Context", .input, true, []⟩⟩) (by decide) rfl
  exact separate.inputs "Context" leads (by decide)

end SchemaTypings

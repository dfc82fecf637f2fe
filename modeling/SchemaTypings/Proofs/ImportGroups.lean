import SchemaTypings.Proofs.Drafts
import SchemaTypings.Proofs.Grouping
import SchemaTypings.Proofs.Needs
import SchemaTypings.Unit

/-!
# What a unit imports

- `Schema.Unambiguous.needed_unique`: in an unambiguous schema a name is needed under one category only, so that it does
  not matter which of several mentions comes first;
- `importGroups_eq`: the unit of an entity imports the models of its needed names and the context type, each under its
  own module, and nothing else;
- `entityUnit_eq_ok`: the unit of an entity consists of these imports and of the parts of its declarations.
-/

namespace SchemaTypings

open TypeScript

/-! ## One category for each name -/

/-- A needed name is that of an object, or that of a reference of the same category. -/
theorem object_or_reference_of_needed {s : Schema} {e : Entity} (he : e ∈ s.entities) {n : String} {k : Category}
    (h : Needed s.Expands s e n k) :
    (k = .object ∧ ∃ o ∈ s.objects, o.name = n) ∨ ∃ r ∈ s.references, r.name = n ∧ r.category = k := by
  have behind : ∀ {k name o}, s.Expands k name o → o ∈ s.objects := by
    rintro (_ | _ | _ | _ | _ | _) name o ho <;> first | exact ho.1 | exact ho.elim
  cases h with
  | @own o ho =>
    subst ho
    exact .inl ⟨rfl, o, Schema.mem_objects.2 (Schema.mem_entities.1 he), rfl⟩
  | behindOwn ho => exact .inl ⟨rfl, _, behind ho, rfl⟩
  | field hf _ => exact .inr ⟨_, references_of_entity he hf List.mem_cons_self, rfl, rfl⟩
  | behindField _ ho => exact .inl ⟨rfl, _, behind ho, rfl⟩
  | argument hf hb =>
    exact .inr ⟨_, references_of_entity he hf (List.mem_cons_of_mem _ (List.mem_map_of_mem hb)), rfl, rfl⟩
  | inputField _ hi hb => exact .inr ⟨_, Schema.references_of_input (mem_of_lastOf hi).1 hb, rfl, rfl⟩
  | typeOf _ hb =>
    rcases hb.2 with ⟨_, _, hb⟩ | ⟨_, _, _, hb⟩
    · exact .inl ⟨rfl, _, behind hb, rfl⟩
    · exact .inl ⟨rfl, _, behind hb, rfl⟩

namespace Schema.Unambiguous

variable {s : Schema} (u : s.Unambiguous) (c : s.Consistent)

include u c

/-- References to one name have one category. -/
theorem category_unique {r r' : TypeRef} (hr : r ∈ s.references) (hr' : r' ∈ s.references) (h : r.name = r'.name) :
    r.category = r'.category := by
  have agree : ∀ r ∈ s.references, ∀ r' ∈ s.references, r.name = r'.name → r.category ≠ .scalar →
      r.category = r'.category := by
    intro r hr r' hr' h hc
    obtain ⟨d, hd, hn, hk⟩ := c.references r hr hc
    exact hk.symm.trans (u.categories r' hr' d hd (hn.trans h))
  by_cases hc : r.category = .scalar
  · by_cases hc' : r'.category = .scalar
    · exact hc.trans hc'.symm
    · exact (agree r' hr' r hr h.symm hc').symm
  · exact agree r hr r' hr' h hc

theorem needed_unique {e : Entity} (he : e ∈ s.entities) {n : String} {k k' : Category}
    (h : Needed s.Expands s e n k) (h' : Needed s.Expands s e n k') : k = k' := by
  rcases object_or_reference_of_needed he h with ⟨rfl, o, ho, rfl⟩ | ⟨r, hr, rfl, rfl⟩
  · rcases object_or_reference_of_needed he h' with ⟨rfl, -⟩ | ⟨r, hr, hn, rfl⟩
    · rfl
    · exact u.categories r hr (.object o) (mem_objects.1 ho) hn.symm
  · rcases object_or_reference_of_needed he h' with ⟨rfl, o, ho, hn⟩ | ⟨r', hr', hn, rfl⟩
    · exact (u.categories r hr (.object o) (mem_objects.1 ho) hn).symm
    · exact u.category_unique c hr hr' hn.symm

end Schema.Unambiguous

/-! ## The unit of an entity -/

/-- The unit of an entity imports a name from a module: it is that of the model of a needed name, or that of the
context type. -/
def Source.Imports (src : Source) (e : Entity) (module name : String) : Prop :=
  (∃ n k, Needed src.schema.Expands src.schema e n k ∧
    ∃ m, src.models.model? src.schema.roots k n = some m ∧ m.module = module ∧ m.typeName = name) ∨
  ∃ c, src.context = some c ∧ c.module = module ∧ c.typeName = name

/-- A unit imports a name from a module. -/
def EntityUnit.ImportsFrom (u : EntityUnit) (module name : String) : Prop :=
  ∃ i ∈ u.imports, i.module = module ∧ name ∈ i.names

/-- The names that a unit declares, that of the context among them where there is no context type. -/
def EntityUnit.declaredNames (u : EntityUnit) : List String :=
  (if u.declaresContext then [contextPlaceholder] else []) ++ u.declarations.map Declaration.name

/-- The unit made of the parts of an entity, with what it imports from the modules of models. -/
def EntityParts.unit {src : Source} {a : Associations} {e : Entity}
    (x : EntityParts (src.projection a) src.contextType e) (g : ImportGroups) : EntityUnit where
  entity := e.name
  imports := EntityUnit.libraryImport (x.assemble src.switches).hasTypeOf ::
    g.groups.entries.map (fun (module, ns) => ⟨ns, module⟩) ++ EntityUnit.enumsImport x.enums
  declaresContext := src.context.isNone
  declarations := (x.assemble src.switches).declarations

/-- A unit imports from the library, from the modules of its groups, and from the enum unit. -/
theorem EntityParts.importsFrom_unit {src : Source} {a : Associations} {e : Entity}
    (x : EntityParts (src.projection a) src.contextType e) {g : ImportGroups} (distinct : g.Distinct)
    {module name : String} : (x.unit g).ImportsFrom module name ↔
      (module = "graphql" ∧ name ∈ (EntityUnit.libraryImport (x.assemble src.switches).hasTypeOf).names) ∨
        name ∈ g.namesOf module ∨ (module = "./enums" ∧ name ∈ x.enums) := by
  have library : (EntityUnit.libraryImport (x.assemble src.switches).hasTypeOf).module = "graphql" := rfl
  have enums : (∃ i ∈ EntityUnit.enumsImport x.enums, i.module = module ∧ name ∈ i.names) ↔
      module = "./enums" ∧ name ∈ x.enums := by
    have enumsModule : unitModule enumsUnit = "./enums" := by decide
    unfold EntityUnit.enumsImport
    cases x.enums <;> simp [enumsModule, eq_comm]
  have groups : (∃ i ∈ g.groups.entries.map (fun (module, ns) => (⟨ns, module⟩ : Import)),
      i.module = module ∧ name ∈ i.names) ↔ name ∈ g.namesOf module := by
    rw [ImportGroups.mem_namesOf_iff distinct]
    constructor
    · rintro ⟨i, hi, rfl, hn⟩
      obtain ⟨⟨m, ns⟩, hm, rfl⟩ := List.mem_map.1 hi
      exact ⟨ns, hm, hn⟩
    · rintro ⟨ns, hm, hn⟩
      exact ⟨⟨ns, module⟩, List.mem_map.2 ⟨(module, ns), hm, rfl⟩, rfl, hn⟩
  unfold EntityUnit.ImportsFrom unit
  simp only [List.cons_append, List.mem_cons, List.mem_append, or_and_right, exists_or, exists_eq_left]
  rw [groups, enums, library, @eq_comm _ "graphql" module]

section Units

variable {src : Source} {a : Associations} (u : src.schema.Unambiguous) (c : src.schema.Consistent)
  (t : Tables src.schema a) {e : Entity} (he : e ∈ src.schema.entities)

include u c t he

/-- The models that are imported for an entity are those of its needed names. -/
theorem modelGroups_eq {needed : OrderedMap String Category} (hn : neededModels a e = .ok needed) {g : ImportGroups}
    (hg : groupByModule src.models src.schema.roots needed = .ok g) :
    g.Distinct ∧ ∀ module name, name ∈ g.namesOf module ↔ ∃ n k, Needed src.schema.Expands src.schema e n k ∧
      ∃ m, src.models.model? src.schema.roots k n = some m ∧ m.module = module ∧ m.typeName = name := by
  obtain ⟨ns, hns, mem⟩ := neededModels_eq c (p := src.projection a) t he
  cases hns.symm.trans hn
  obtain ⟨distinct, inModels⟩ := groupByModule_eq_ok hg
  have expands : (src.projection a).associations.Expands = src.schema.Expands := expands_eq c u t
  rw [expands] at mem
  have needed : ∀ n k, (n, k) ∈ (OrderedMap.ofFirst ns).entries ↔ Needed src.schema.Expands src.schema e n k := by
    intro n k
    rw [OrderedMap.mem_entries_iff (OrderedMap.nodup_keys_ofFirst ns), OrderedMap.get?_ofFirst]
    constructor
    · exact fun hl => (mem n k).1 (mem_of_lookup hl)
    · intro hn
      -- the table has the first category that was found, but there is no other
      obtain ⟨k', hl⟩ := exists_lookup_of_mem ((mem n k).2 hn)
      rw [u.needed_unique c he hn ((mem n k').1 (mem_of_lookup hl))]
      exact hl
  simp only [needed] at inModels
  exact ⟨distinct, inModels⟩

theorem importGroups_eq {g : ImportGroups} (h : src.importGroups a e = .ok g) :
    g.Distinct ∧ ∀ module name, name ∈ g.namesOf module ↔ src.Imports e module name := by
  obtain ⟨needed, hn, h⟩ := bind_eq_ok.1 h
  obtain ⟨models, hm, h⟩ := bind_eq_ok.1 h
  obtain ⟨distinct, inModels⟩ := modelGroups_eq u c t he hn hm
  unfold Source.Imports
  cases hc : src.context with
  | none =>
    simp only [hc] at h
    cases h
    exact ⟨distinct, fun module name => by simp [inModels]⟩
  | some x =>
    simp only [hc] at h
    cases h
    have before := partitions_of_groupByModule hm
    have partitions := before.push x.module x.typeName
    refine ⟨partitions.distinct, fun module name => ?_⟩
    rw [partitions.mem_namesOf, List.mem_append, ← before.mem_namesOf, inModels]
    simp [eq_comm]

omit u c t he in
/-- The unit of an entity consists of the parts of its declarations and of what it imports. -/
theorem entityUnit_eq_ok {v : EntityUnit} (h : src.entityUnit a e = .ok v) :
    ∃ (x : EntityParts (src.projection a) src.contextType e) (g : ImportGroups),
      src.importGroups a e = .ok g ∧ v = x.unit g := by
  obtain ⟨built, hb, h⟩ := bind_eq_ok.1 h
  obtain ⟨g, hg, h⟩ := bind_eq_ok.1 h
  obtain ⟨x, rfl⟩ := EntityDeclarations.content_eq_ok (EntityDeclarations.build_eq_ok.1 hb).2
  cases h
  exact ⟨x, g, hg, rfl⟩

omit u c t he in
/-- No two declarations of a unit have one name. -/
theorem nodup_declarations {v : EntityUnit} (h : src.entityUnit a e = .ok v) :
    (v.declarations.map Declaration.name).Nodup := by
  obtain ⟨built, hb, h⟩ := bind_eq_ok.1 h
  obtain ⟨g, -, h⟩ := bind_eq_ok.1 h
  cases h
  obtain ⟨⟨inputs, hi, distinct⟩, content⟩ := EntityDeclarations.build_eq_ok.1 hb
  obtain ⟨x, rfl⟩ := EntityDeclarations.content_eq_ok content
  cases hi.symm.trans x.inputs_eq
  rw [x.names_assemble]
  exact distinct

end Units

end SchemaTypings

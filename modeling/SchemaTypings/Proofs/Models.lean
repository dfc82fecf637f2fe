import SchemaTypings.Proofs.Dependence

/-!
# The model map

How the units of a source depend on the map of its models.

- `generate_persists`: whatever is generated persists where the answers to the questions of the schema persist;
- `default_module_falls_back`: where units are generated without a default module, a default module changes nothing;
- `irrelevant_models`: names that are not asked for may be mapped to anything.
-/

namespace SchemaTypings

open TypeScript

variable {s : Schema} {P : Fault → Prop} {m m' : ModelMap}

/-- What is generated depends on the models that the schema asks for. -/
theorem generate_persists {context : Option ContextType} {switches : Switches} (answers : s.Answers P m m')
    (format : Formatter) : Persists P (Source.generate ⟨s, m, context, switches⟩ format)
      (Source.generate ⟨s, m', context, switches⟩ format) := by
  rw [Source.generate_eq, Source.generate_eq]
  refine Persists.bind ?_ fun _ _ => .refl _
  refine (Persists.refl (Associations.build s)).bind fun a ha => ?_
  exact (Persists.mapM fun e he =>
    entityUnit_persists answers rfl (tables_of_build ha) (fun _ => .refl a _) he).bind_same _

/-! ## The default module -/

/-- A source whose objects are left to a default module. -/
def Source.withDefaultModule (src : Source) (module : String) : Source :=
  { src with models := src.models.withDefaultModule module }

section DefaultModule

variable {roots : Roots} {n : String}

/-- A model that is found without a default module is found with one as well. -/
theorem modelFor_withDefaultModule (none : m.defaultModule = none) (module : String) {k : Category}
    {model : Option Model} (h : modelFor m roots n k = .ok model) :
    modelFor (m.withDefaultModule module) roots n k = .ok model := by
  have lookup : (m.withDefaultModule module).lookup n = m.lookup n := rfl
  cases k with
  | object =>
    simp only [modelFor, ModelMap.objectModel?, lookup] at h ⊢
    cases hm : m.lookup n with
    | external model' => rwa [hm] at h
    | enumBacked => rwa [hm] at h
    | unmapped =>
      rw [hm] at h
      -- an object without an entry is found only if it is a root operation type
      cases root : roots.contains n with
      | true => simpa [root] using h
      | false => simp [root, none] at h
  | _ => exact h

/-- A root operation type without an entry keeps its value with a default module. -/
theorem objectType_of_root (a : Associations) (root : roots.contains n = true) (unmapped : m.lookup n = .unmapped) :
    Projection.objectType ⟨a, m, roots⟩ n = .ok (.ident "undefined") := by
  simp [Projection.objectType, ModelMap.objectModel?, unmapped, root]

/-- An object with an entry of its own does not depend on a default module. -/
theorem objectType_of_entry (a : Associations) (mapped : m.lookup n ≠ .unmapped) (module : String) :
    Projection.objectType ⟨a, m.withDefaultModule module, roots⟩ n = Projection.objectType ⟨a, m, roots⟩ n := by
  have lookup : (m.withDefaultModule module).lookup n = m.lookup n := rfl
  simp only [Projection.objectType, ModelMap.objectModel?, lookup]
  cases hm : m.lookup n with
  | unmapped => exact absurd hm mapped
  | _ => rfl

end DefaultModule

/-- Where units are generated without a default module, any default module leaves them as they are: root operation types
without a model are still `undefined`, and entries and scalars keep their meaning. -/
theorem default_module_falls_back {src : Source} (none : src.models.defaultModule = none) (format : Formatter)
    {us : List OutputUnit} (h : src.generate format = .ok us) (module : String) :
    (src.withDefaultModule module).generate format = .ok us ∧ ∀ a n,
      (src.schema.roots.contains n = true → src.models.lookup n = .unmapped →
        ((src.withDefaultModule module).projection a).objectType n = .ok (.ident "undefined")) ∧
      (src.models.lookup n ≠ .unmapped →
        ((src.withDefaultModule module).projection a).objectType n = (src.projection a).objectType n) ∧
      ((src.withDefaultModule module).projection a).scalarType n = (src.projection a).scalarType n := by
  have answers : src.schema.Answers (fun _ => False) src.models (src.models.withDefaultModule module) := fun n k _ =>
    ⟨fun model found => modelFor_withDefaultModule none module found, fun _ impossible => impossible.elim⟩
  refine ⟨(generate_persists answers format).result us h, fun a n => ⟨fun root unmapped => ?_, fun mapped => ?_, rfl⟩⟩
  · exact objectType_of_root a root unmapped
  · exact objectType_of_entry a mapped module

/-- The schema of `library` with a model for each object but the root. -/
def mappedSource : Source := ⟨librarySchema,
  (ModelMap.empty.withModel "Book" ⟨"Volume", "./books", none⟩).withModel "Map" ⟨"Sheet", "./maps", none⟩, none, .off⟩

theorem mappedSource_generates : ∃ us, mappedSource.generate .passthrough = .ok us := by
  have accepted : library.schema = .ok mappedSource.schema := library_accepted
  exact exists_generate (Sdl.schema_consistent accepted) .passthrough (by decide) (by decide +kernel)

theorem default_module_falls_back_mapped : ∃ us, mappedSource.generate .passthrough = .ok us ∧
    (mappedSource.withDefaultModule "./models").generate .passthrough = .ok us := by
  obtain ⟨us, h⟩ := mappedSource_generates
  exact ⟨us, h, (default_module_falls_back rfl .passthrough h "./models").1⟩

/-! ## Entries that nothing asks for -/

theorem modelFor_congr (default : m'.defaultModule = m.defaultModule) (roots : Roots) {n : String}
    (lookup : m'.lookup n = m.lookup n) (k : Category) : modelFor m' roots n k = modelFor m roots n k := by
  unfold modelFor ModelMap.objectModel?
  rw [default, lookup]

/-- Where no argument has an abstract type, the units depend on the models of objects and scalars only: for other names
the map may hold anything, and its entries may stand in any order. -/
theorem irrelevant_models (concrete : ∀ b ∈ s.arguments, b.type.category.isAbstract = false)
    (default : m'.defaultModule = m.defaultModule) (objects : ∀ o ∈ s.objects, m'.lookup o.name = m.lookup o.name)
    (references : ∀ r ∈ s.references, r.category = .object ∨ r.category = .scalar → m'.lookup r.name = m.lookup r.name)
    (context : Option ContextType) (switches : Switches) (format : Formatter) :
    Source.generate ⟨s, m', context, switches⟩ format = Source.generate ⟨s, m, context, switches⟩ format := by
  have of_reference : ∀ r ∈ s.references, r.category.isAbstract = false →
      modelFor m' s.roots r.name r.category = modelFor m s.roots r.name r.category := fun r hr hc => by
    cases hk : r.category with
    | object => exact modelFor_congr default _ (references r hr (.inl hk)) _
    | scalar => exact modelFor_congr default _ (references r hr (.inr hk)) _
    | enum => rfl
    | input => rfl
    | interface => simp [hk, Category.isAbstract] at hc
    | union => simp [hk, Category.isAbstract] at hc
  have answers : s.Answers (fun _ => True) m' m := fun n k asks => .of_eq (by
    cases asks with
    | object ho => exact modelFor_congr default _ (objects _ ho) _
    | reference hr hc => exact of_reference _ hr hc
    | argument hb => exact of_reference _ (Schema.references_of_arguments hb) (concrete _ hb))
  exact (generate_persists answers format).eq fun _ => trivial

/-- The models of `librarySource` behind entries for an enum, an input type and an interface. -/
def crowdedModels : ModelMap where
  defaultModule := some "./models"
  entries := ⟨[("Genre", .enum), ("Filter", .external ⟨"Query", "./sql", none⟩),
    ("Item", .external ⟨"Thing", "./things", none⟩), ("Date", .external ⟨"Moment", "./time", none⟩)]⟩

theorem irrelevant_models_crowded : crowdedModels ≠ librarySource.models ∧
    Source.generate ⟨librarySchema, crowdedModels, none, ⟨true, false⟩⟩ .passthrough =
      Source.generate ⟨librarySchema, librarySource.models, none, ⟨true, false⟩⟩ .passthrough := by
  have default : crowdedModels.defaultModule = librarySource.models.defaultModule := rfl
  have concrete : ∀ b ∈ librarySchema.arguments, b.type.category.isAbstract = false := by decide
  have objects : ∀ o ∈ librarySchema.objects, crowdedModels.lookup o.name = librarySource.models.lookup o.name := by
    decide
  have references : ∀ r ∈ librarySchema.references, r.category = .object ∨ r.category = .scalar →
      crowdedModels.lookup r.name = librarySource.models.lookup r.name := by decide
  exact ⟨by decide, irrelevant_models concrete default objects references none ⟨true, false⟩ .passthrough⟩

end SchemaTypings

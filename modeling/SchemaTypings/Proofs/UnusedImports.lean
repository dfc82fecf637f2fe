import SchemaTypings.Proofs.Closure

/-!
# Imports that nothing refers to

The models that a unit imports are collected by a walk over names and categories, without a look at the types that are
made of them. Most of what this walk finds is mentioned by the declarations, but three kinds of names are not mentioned
by their models: built-in scalars, which are primitives; interfaces and unions as types of arguments and input fields,
for which the objects behind them stand; and an object that has neither fields nor interfaces, in its own unit.

- `Entity.Idle`: a needed name is of one of these kinds. All others are mentioned by their models
  (`mentions_of_needed`, `identifier_of_model?`);
- `refersTo_iff`: a unit refers to the identifiers that stand in its parts;
- `model_imports_used_iff`: a unit refers to all models that it imports if and only if something else has the name of
  each model that is imported for an idle name;
- `keyed_import_unused`: a unit with an import that nothing refers to.
-/

namespace SchemaTypings

open TypeScript

/-! ## Idle names -/

/-- An object without fields and interfaces. Its unit declares an empty aggregate and nothing else. -/
def Entity.Bare (e : Entity) : Prop := ∃ o, e = .object o ∧ o.fields = [] ∧ o.implements = []

/-- A needed name is not mentioned by its model in the unit of an entity. -/
def Entity.Idle (e : Entity) (name : String) : Category → Prop
  | .object => e.Bare
  | .scalar => name ∈ Sdl.builtinScalars
  | .interface | .union => True
  | .enum | .input => False

section Needed

variable {s : Schema} {e : Entity} {n : String} {k : Category}

theorem Entity.isAbstract_of_not_idle (h : ¬e.Idle n k) : k.isAbstract = false := by
  cases k with
  | interface => exact absurd trivial h
  | union => exact absurd trivial h
  | _ => rfl

theorem Schema.isAbstract_of_expands {o : ObjectType} (h : s.Expands k n o) : k.isAbstract = true := by
  cases k with
  | interface => rfl
  | union => rfl
  | _ => exact h.elim

/-- An object that implements an interface is a possible type of its own type-of check. -/
theorem Schema.possible_self {o : ObjectType} (ho : o ∈ s.objects) (some : o.implements ≠ []) :
    s.Possible s.Expands o o := by
  obtain ⟨i, hi⟩ := List.exists_mem_of_ne_nil _ some
  exact ⟨some, .inl ⟨i, hi, ho, hi⟩⟩

/-- Whatever is needed and not idle is mentioned. -/
theorem mentions_of_needed (he : e ∈ s.entities) (h : Needed s.Expands s e n k) (active : ¬e.Idle n k) :
    Mentions s.Expands s e n k := by
  have concrete : k.isAbstract = false := Entity.isAbstract_of_not_idle active
  cases h with
  | @own o own =>
    by_cases fields : o.fields = []
    · have some : o.implements ≠ [] := fun none => active ⟨o, own, fields, none⟩
      subst own
      exact .possible rfl (Schema.possible_self (Schema.mem_objects.2 (Schema.mem_entities.1 he)) some)
    · subst own
      exact .own (.inl rfl) (.inl fields)
  | behindOwn ho => exact .own (.inr ho) (.inr (Schema.isAbstract_of_expands ho))
  | field hf concrete => exact .type hf (.inl ⟨concrete, rfl, rfl⟩)
  | behindField hf ho => exact .type hf (.inr ⟨rfl, _, ho, rfl⟩)
  | argument hf hb => exact .argument hf hb (.inl ⟨concrete, rfl, rfl⟩)
  | inputField hl hi hb => exact .inputField hl hi hb (.inl ⟨concrete, rfl, rfl⟩)
  | typeOf own hb => exact .possible own hb

/-- The model of a name that is not idle is its identifier. -/
theorem identifier_of_model? {src : Source} {m : Model} (hm : src.models.model? src.schema.roots k n = some m)
    (active : ¬e.Idle n k) : src.identifier k n = m.typeName := by
  cases k with
  | object =>
    have found : src.models.objectModel? src.schema.roots n = some m := hm
    show src.models.valueName src.schema.roots n = m.typeName
    rw [ModelMap.valueName, found]
  | scalar =>
    have found : src.models.lookup n = .external m := by
      cases h : src.models.lookup n with
      | external model => simpa [ModelMap.model?, h] using hm
      | enumBacked => simp [ModelMap.model?, h] at hm
      | unmapped => simp [ModelMap.model?, h] at hm
    show src.models.scalarName n = m.typeName
    rw [ModelMap.scalarName, primitive?_eq_none.2 active, found]
  | enum => cases hm
  | input => cases hm
  | interface => exact absurd trivial active
  | union => exact absurd trivial active

end Needed

/-! ## Used imports -/

/-- The declarations of a unit refer to a name. -/
def EntityUnit.RefersTo (u : EntityUnit) (name : String) : Prop := ∃ d ∈ u.declarations, d.Refers name

/-- The models that are imported for the needed names of an entity, by module. -/
def Source.ModelGroups (src : Source) (e : Entity) (g : ImportGroups) : Prop :=
  ∃ a needed, Associations.build src.schema = .ok a ∧ neededModels a e = .ok needed ∧
    groupByModule src.models src.schema.roots needed = .ok g

/-- A model is imported into the unit of an entity for an idle name. -/
def Source.ImportsIdly (src : Source) (e : Entity) (m : Model) : Prop :=
  ∃ n k, Needed src.schema.Expands src.schema e n k ∧ src.models.model? src.schema.roots k n = some m ∧ e.Idle n k

/-- Something else in the unit of an entity has the name of a model: the name stands in a part of the unit. -/
def Source.Namesake (src : Source) (e : Entity) (m : Model) : Prop :=
  src.ShowsUnit src.schema.Expands e m.typeName

section Units

variable {src : Source} {a : Associations} {e : Entity} (u : src.schema.Unambiguous) (c : src.schema.Consistent)
  (he : e ∈ src.schema.entities) {v : EntityUnit}

include u c he

/-- A unit refers to what stands in its parts. -/
theorem refersTo_iff (ha : Associations.build src.schema = .ok a) (hv : src.entityUnit a e = .ok v) {n : String} :
    v.RefersTo n ↔ src.ShowsUnit src.schema.Expands e n := by
  have t : Tables src.schema a := tables_of_build ha
  obtain ⟨x, g, -, rfl⟩ := entityUnit_eq_ok hv
  rw [← expands_eq c u t]
  constructor
  · rintro ⟨d, hd, hn⟩
    exact shows_of_refers c t he hd hn
  · exact refers_of_shows c t he

omit u c in
/-- A unit declares input types, and what is named after the entity and its fields. -/
theorem mem_names_declarations (ha : Associations.build src.schema = .ok a) (hv : src.entityUnit a e = .ok v)
    {n : String} : n ∈ v.declarations.map Declaration.name ↔ src.schema.Leads e n ∨ n ∈ src.ownNames e := by
  obtain ⟨x, g, -, rfl⟩ := entityUnit_eq_ok hv
  obtain ⟨is, his, -, -, inputs⟩ := inputTypes_eq (p := src.projection a) (tables_of_build ha) he
  cases his.symm.trans x.inputs_eq
  show n ∈ (x.assemble src.switches).declarations.map Declaration.name ↔ _
  rw [x.names_assemble, Projection.declaredNames, Source.ownNames_eq, List.mem_append, inputs n]

omit u c he in
/-- There is one collection of models for an entity. -/
theorem modelGroups_iff (ha : Associations.build src.schema = .ok a) {g : ImportGroups} : src.ModelGroups e g ↔
    ∃ needed, neededModels a e = .ok needed ∧ groupByModule src.models src.schema.roots needed = .ok g := by
  constructor
  · rintro ⟨a', needed, ha', found⟩
    cases ha.symm.trans ha'
    exact ⟨needed, found⟩
  · rintro ⟨needed, found⟩
    exact ⟨a, needed, ha, found⟩

/-- The unit of an entity imports the models of its needed names. -/
theorem exists_modelGroups (ha : Associations.build src.schema = .ok a) (hv : src.entityUnit a e = .ok v) :
    ∃ g, src.ModelGroups e g ∧ ∀ module, ∀ name ∈ g.namesOf module, v.ImportsFrom module name := by
  have t : Tables src.schema a := tables_of_build ha
  obtain ⟨x, all, h, rfl⟩ := entityUnit_eq_ok hv
  obtain ⟨distinct, imports⟩ := importGroups_eq u c t he h
  obtain ⟨needed, hn, h⟩ := bind_eq_ok.1 h
  obtain ⟨g, hg, h⟩ := bind_eq_ok.1 h
  refine ⟨g, ⟨a, needed, ha, hn, hg⟩, fun module name found => ?_⟩
  have wanted := ((modelGroups_eq u c t he hn hg).2 module name).1 found
  exact (x.importsFrom_unit distinct).2 (.inr (.inl ((imports module name).2 (.inl wanted))))

/-- Only idle names have models that a unit does not refer to. -/
theorem modelGroups_used_iff (ha : Associations.build src.schema = .ok a) (hv : src.entityUnit a e = .ok v)
    {g : ImportGroups} (hg : src.ModelGroups e g) :
    (∀ module, ∀ name ∈ g.namesOf module, v.RefersTo name) ↔ ∀ m, src.ImportsIdly e m → src.Namesake e m := by
  obtain ⟨needed, hn, hg⟩ := (modelGroups_iff ha).1 hg
  have mem := (modelGroups_eq u c (tables_of_build ha) he hn hg).2
  constructor
  · rintro used m ⟨n, k, hk, hm, -⟩
    have imported : m.typeName ∈ g.namesOf m.module := (mem _ _).2 ⟨n, k, hk, m, hm, rfl, rfl⟩
    exact (refersTo_iff u c he ha hv).1 (used m.module m.typeName imported)
  · intro idle module name found
    obtain ⟨n, k, hk, m, hm, -, rfl⟩ := (mem module name).1 found
    refine (refersTo_iff u c he ha hv).2 ?_
    by_cases active : e.Idle n k
    · exact idle m ⟨n, k, hk, hm, active⟩
    · have mentioned := mentions_of_needed he hk active
      rw [← identifier_of_model? hm active]
      rw [← expands_eq c u (tables_of_build ha)] at mentioned ⊢
      exact shows_of_mentions mentioned

end Units

/-- A generated entity unit imports the models of the needed names. It refers to all of them if and only if each model
that is imported for an idle name has a namesake. -/
theorem model_imports_used_iff {d : Sdl.Document} {src : Source} (accepted : d.schema = .ok src.schema)
    (distinct : (d.types.map Sdl.TypeDefinition.name).Nodup) {format : Formatter} {us : List OutputUnit}
    (generated : src.generate format = .ok us) :
    src.EachUnit format us fun e v => ∃ g, src.ModelGroups e g ∧
      (∀ module, ∀ name ∈ g.namesOf module, v.ImportsFrom module name) ∧
      ((∀ module, ∀ name ∈ g.namesOf module, v.RefersTo name) ↔
        ∀ m, src.ImportsIdly e m → src.Namesake e m) := by
  have c : src.schema.Consistent := Sdl.schema_consistent accepted
  have u : src.schema.Unambiguous := Sdl.schema_unambiguous accepted distinct
  refine eachUnit_of_generate generated fun a ha e he v hv => ?_
  obtain ⟨g, hg, imported⟩ := exists_modelGroups u c he ha hv
  exact ⟨g, hg, imported, modelGroups_used_iff u c he ha hv hg⟩

theorem model_imports_used_iff_library : ∃ us, librarySource.generate .passthrough = .ok us ∧
    librarySource.EachUnit .passthrough us fun e v => ∃ g, librarySource.ModelGroups e g ∧
      (∀ module, ∀ name ∈ g.namesOf module, v.ImportsFrom module name) ∧
      ((∀ module, ∀ name ∈ g.namesOf module, v.RefersTo name) ↔
        ∀ m, librarySource.ImportsIdly e m → librarySource.Namesake e m) := by
  obtain ⟨us, generated⟩ := library_generates
  exact ⟨us, generated, model_imports_used_iff library_accepted (by decide) generated⟩

/-- A document with a field of a built-in scalar. -/
def keyed : Sdl.Document := ⟨[.definition (.object "Query" [] [⟨"key", .named "ID" false, []⟩])]⟩

/-- The query of `keyed`. -/
def keyedQuery : ObjectType := ⟨"Query", [⟨"key", ⟨"ID", .scalar, true, []⟩, []⟩], []⟩

/-- The schema of `keyed` with a model for its scalar. -/
def keyedSource : Source :=
  ⟨⟨[.object keyedQuery], .standard⟩, ModelMap.empty.withModel "ID" ⟨"Key", "./scalars", none⟩, none, .off⟩

theorem keyed_not_leads {n : String} : ¬keyedSource.schema.Leads (.object keyedQuery) n := by
  have nothing : (keyedSource.schema.walkedFields (.object keyedQuery)).flatMap Field.arguments = [] := by decide
  rw [Schema.Leads, nothing]
  exact Reaches.not_nil

/-- Nothing in the unit of the query stands for the model of its scalar, which is rendered as `string`. -/
theorem keyed_not_shown : ¬keyedSource.ShowsUnit keyedSource.schema.Expands (.object keyedQuery) "Key" := by
  intro h
  generalize name : "Key" = n at h
  cases h with
  | inputField leads _ _ _ => exact keyed_not_leads leads
  | argument hf hb _ =>
    cases List.mem_singleton.1 hf
    cases hb
  | resolver hf shows =>
    cases List.mem_singleton.1 hf
    subst name
    rcases shows with (⟨o, own | behind, name⟩ | ⟨-, name⟩) | ⟨some, -⟩ | name | name | type | name | name
    · cases own
      exact absurd name (by decide)
    · exact behind.elim
    · exact absurd name (by decide)
    · exact some rfl
    · exact absurd name (by decide)
    · exact absurd name (by decide)
    · rcases type with (⟨m, k, ⟨-, rfl, rfl⟩ | ⟨-, o, behind, -⟩, name⟩ | ⟨-, name⟩) | ⟨-, name⟩ | ⟨-, name⟩
      · exact absurd name (by decide)
      · exact behind.elim
      all_goals exact absurd name (by decide)
    · exact absurd name (by decide)
    · exact absurd name (by decide)
  | member hf =>
    cases List.mem_singleton.1 hf
    exact absurd name (by decide)
  | check shows =>
    obtain ⟨⟨b, possible⟩, -⟩ := shows
    exact possible.1 rfl

/-- The unit of the query imports the model of the scalar, but it neither declares that name nor refers to it. -/
theorem keyed_import_unused : keyed.schema = .ok keyedSource.schema ∧
    (keyed.types.map Sdl.TypeDefinition.name).Nodup ∧ ∃ us, keyedSource.generate .passthrough = .ok us ∧
      ¬keyedSource.EachUnit .passthrough us fun e v => ∀ g, keyedSource.ModelGroups e g →
        ∀ module, ∀ name ∈ g.namesOf module, name ∈ v.declaredNames ∨ v.RefersTo name := by
  have accepted : keyed.schema = .ok keyedSource.schema := by decide
  have distinct : (keyed.types.map Sdl.TypeDefinition.name).Nodup := by decide
  have c : keyedSource.schema.Consistent := Sdl.schema_consistent accepted
  have u : keyedSource.schema.Unambiguous := Sdl.schema_unambiguous accepted distinct
  obtain ⟨us, generated⟩ : ∃ us, keyedSource.generate .passthrough = .ok us :=
    exists_generate c .passthrough (by decide) (by decide +kernel)
  refine ⟨accepted, distinct, us, generated, fun used => ?_⟩
  have query : Entity.object keyedQuery ∈ keyedSource.schema.entities := by decide
  obtain ⟨a, v, ha, hv, used⟩ := used.exists_unit query
  obtain ⟨g, groups, -⟩ := exists_modelGroups u c query ha hv
  have t : Tables keyedSource.schema a := tables_of_build ha
  obtain ⟨needed, hn, hg⟩ := (modelGroups_iff ha).1 groups
  have wanted : Needed keyedSource.schema.Expands keyedSource.schema (.object keyedQuery) "ID" .scalar :=
    Needed.field (f := ⟨"key", ⟨"ID", .scalar, true, []⟩, []⟩) (by decide) rfl
  have imported : "Key" ∈ g.namesOf "./scalars" :=
    ((modelGroups_eq u c t query hn hg).2 _ _).2 ⟨"ID", .scalar, wanted, ⟨"Key", "./scalars", none⟩, rfl, rfl, rfl⟩
  rcases used g groups _ _ imported with declared | refers
  · rcases List.mem_append.1 declared with placeholder | declared
    · split at placeholder
      · exact absurd (List.mem_singleton.1 placeholder) (by decide)
      · cases placeholder
    · rcases (mem_names_declarations query ha hv).1 declared with leads | own
      · exact keyed_not_leads leads
      · exact absurd own (by decide)
  · exact keyed_not_shown ((refersTo_iff u c query ha hv).1 refers)

end SchemaTypings

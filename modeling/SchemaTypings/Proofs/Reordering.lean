import SchemaTypings.Proofs.Outcome
import SchemaTypings.Proofs.Scopes

/-!
# The order of definitions

The statements of a document may stand in any order, as long as no name is defined twice.

- `Sdl.schema_definitions`: the schema of a document, definition by definition. A name has the same category in any
  order (`Sdl.category?_perm`), so that each type definition resolves to the same;
- `Schema.Reordered`: two schemas have the same definitions up to their order and the implementors of interfaces. Their
  tables have the same input types and enums (`Reordered.tables`), and typings can be generated from both or from
  neither (`Reordered.exists_generate`);
- `Sdl.order_irrelevant`: hence two documents with the same statements mean the same.
-/

namespace SchemaTypings

namespace Sdl

/-! ## Schemas of documents -/

/-- What a type definition resolves to in a document, if it resolves to anything. -/
def Document.resolved? (d : Document) (t : TypeDefinition) : Option Definition :=
  ((Scope.ofTypes d.types).definition t).toOption.join

/-- A definition with the implementors that a document gives it. -/
def Document.completed (d : Document) (x : Definition) : Definition :=
  withImplementors (implementorsOf d.types x.name) x

/-- A document has a schema if all its type definitions can be resolved. -/
theorem exists_schema_iff {d : Document} :
    (∃ s, d.schema = .ok s) ↔ ∀ t ∈ d.types, ∃ o, (Scope.ofTypes d.types).definition t = .ok o := by
  constructor
  · rintro ⟨s, h⟩ t ht
    obtain ⟨results, hr, -⟩ := bind_eq_ok.1 h
    obtain ⟨o, -, ho⟩ := exists_mem_of_mapM hr ht
    exact ⟨o, ho⟩
  · intro h
    obtain ⟨results, hr⟩ := mapM_isOk h
    exact ⟨_, bind_eq_ok.2 ⟨results, hr, rfl⟩⟩

/-- Without repeated names the definitions of a schema are what the type definitions resolve to, with implementors. -/
theorem schema_definitions {d : Document} {s : Schema} (h : d.schema = .ok s)
    (distinct : (d.types.map TypeDefinition.name).Nodup) :
    s.definitions = (d.types.filterMap d.resolved?).map d.completed := by
  obtain ⟨x, rfl⟩ := exists_resolution h
  have definitions : x.definitions = d.types.filterMap d.resolved? := filterMap_of_mapM x.steps
  rw [Resolution.schema_eq_map (distinct.sublist x.sublist_names), definitions]
  rfl

theorem schema_roots {d : Document} {s : Schema} (h : d.schema = .ok s) : s.roots = rootsOf d.operations := by
  obtain ⟨x, rfl⟩ := exists_resolution h
  rfl

end Sdl

/-! ## Definitions in another order -/

/-- A definition without implementors. -/
def Definition.bare (d : Definition) : Definition := Sdl.withImplementors [] d

/-- An entity without implementors. -/
def Entity.bare : Entity → Entity
  | .interface i => .interface { i with implementors := [] }
  | e => e

@[simp] theorem Entity.fields_bare (e : Entity) : e.bare.fields = e.fields := by
  cases e <;> rfl

@[simp] theorem Source.ownNames_bare (src : Source) (e : Entity) : src.ownNames e.bare = src.ownNames e := by
  cases e <;> rfl

/-- A schema has the definitions of another in any order and with any implementors. -/
structure Schema.Reordered (s s' : Schema) : Prop where
  roots : s'.roots = s.roots
  definitions : (s'.definitions.map Definition.bare).Perm (s.definitions.map Definition.bare)

/-- Objects and interfaces own fields. -/
theorem Schema.exists_fieldOwner {s : Schema} {n : String} (h : s.Defines .object n ∨ s.Defines .interface n) :
    ∃ p ∈ s.fieldOwners, p.1 = n := by
  rcases h with h | h
  · obtain ⟨o, ho, rfl⟩ := Schema.defines_object.1 h
    exact ⟨_, Schema.mem_fieldOwners.2 (.inl ⟨o, Schema.mem_objects.2 ho, rfl⟩), rfl⟩
  · obtain ⟨i, hi, rfl⟩ := Schema.defines_interface.1 h
    exact ⟨_, Schema.mem_fieldOwners.2 (.inr ⟨i, Schema.mem_interfaces.2 hi, rfl⟩), rfl⟩

namespace Schema.Reordered

variable {s s' : Schema} (r : s.Reordered s')

include r

theorem symm : s'.Reordered s := ⟨r.roots.symm, r.definitions.symm⟩

/-- Whatever is read off the definitions but implementors is the same up to order. -/
theorem filterMap {α : Type} {f : Definition → Option α} (keep : ∀ d, f d.bare = f d) :
    (s'.definitions.filterMap f).Perm (s.definitions.filterMap f) := by
  have same := r.definitions.filterMap f
  simpa only [List.filterMap_map, Function.comp_def, keep] using same

theorem objects : s'.objects.Perm s.objects := r.filterMap fun _ => Sdl.object?_withImplementors

theorem inputs : s'.inputs.Perm s.inputs := r.filterMap (by rintro ⟨⟩ <;> rfl)

theorem entities : (s'.entities.map Entity.bare).Perm (s.entities.map Entity.bare) := by
  simp only [Schema.entities, List.map_filterMap]
  exact r.filterMap (by rintro ⟨⟩ <;> rfl)

theorem fieldOwners : s'.fieldOwners.Perm s.fieldOwners := by
  refine List.Perm.append (r.objects.map _) ?_
  simp only [Schema.interfaces, List.map_filterMap]
  exact r.filterMap (by rintro ⟨⟩ <;> rfl)

/-- An entity is one of the other schema too, up to implementors. -/
theorem exists_entity {e' : Entity} (he' : e' ∈ s'.entities) : ∃ e ∈ s.entities, e.bare = e'.bare :=
  List.mem_map.1 (r.entities.mem_iff.1 (List.mem_map_of_mem he'))

variable (u : s.Unambiguous)

include u

theorem input?_eq : s'.input? = s.input? :=
  lastOf_perm r.inputs (Schema.nodup_filterMap u.distinct (by rintro ⟨⟩ x h <;> cases h; rfl))

/-- The tables have the same input types and enums for every object and interface. -/
theorem tables (u' : s'.Unambiguous) {a a' : Associations} (t : Tables s a) (t' : Tables s' a')
    {p : String × List Field} (hp : p ∈ s.fieldOwners) : ∃ ns es, a.inputsOf p.1 = .ok ns ∧
      a'.inputsOf p.1 = .ok ns ∧ a.enumsOf p.1 = .ok es ∧ a'.enumsOf p.1 = .ok es := by
  have hp' : p ∈ s'.fieldOwners := r.fieldOwners.mem_iff.2 hp
  have inputTypes : a'.inputTypes.get? = a.inputTypes.get? := by rw [t'.inputTypes, t.inputTypes, r.input?_eq u]
  obtain ⟨ns, hns, walk⟩ := t.inputsByOwner.get? (Schema.nodup_fieldOwners u.distinct) hp
  obtain ⟨ns', hns', walk'⟩ := t'.inputsByOwner.get? (Schema.nodup_fieldOwners u'.distinct) hp'
  obtain ⟨es, hes, rfl⟩ := t.enumsByOwner.get? (Schema.nodup_fieldOwners u.distinct) hp
  obtain ⟨es', hes', rfl⟩ := t'.enumsByOwner.get? (Schema.nodup_fieldOwners u'.distinct) hp'
  have same : ns' = ns := by
    have known : ∀ n i, a.inputTypes.get? n = some i → a'.inputTypes.get? n = some i := fun n i h => inputTypes ▸ h
    exact Except.ok.inj (walk'.symm.trans (reachableFrom_mono known walk))
  exact ⟨ns, _, find_eq_ok.2 hns, find_eq_ok.2 (same ▸ hns'), find_eq_ok.2 hes, find_eq_ok.2 hes'⟩

/-! ## Generation from both -/

variable {models : ModelMap} {context : Option ContextType} {switches : Switches}

/-- Names clash in the unit of an entity whatever the order of definitions. -/
theorem clash (u' : s'.Unambiguous) {e e' : Entity} (he : e ∈ s.entities) (he' : e' ∈ s'.entities)
    (same : e.bare = e'.bare) {n : String} (h : Source.Clash ⟨s', models, context, switches⟩ e' n) :
    Source.Clash ⟨s, models, context, switches⟩ e n := by
  have fields : e'.fields = e.fields := by rw [← e'.fields_bare, ← same, e.fields_bare]
  have names : Source.ownNames ⟨s', models, context, switches⟩ e' =
      Source.ownNames ⟨s, models, context, switches⟩ e := by
    rw [← Source.ownNames_bare _ e, same, Source.ownNames_bare]
    unfold Source.ownNames Source.emitsDefaults
    rw [r.roots]
  have leads : s'.Leads e' n ↔ s.Leads e n := by
    unfold Schema.Leads
    rw [u.walkedFields_eq he, u'.walkedFields_eq he', fields, r.input?_eq u]
  unfold Source.Clash at h ⊢
  rw [names] at h
  exact h.imp_left (And.imp_left leads.1)

/-- If typings can be generated from one of the schemas, they can be generated from the other. -/
theorem exists_generate (c' : s'.Consistent) (u' : s'.Unambiguous) {format : Formatter}
    (h : ∃ us, Source.generate ⟨s, models, context, switches⟩ format = .ok us) :
    ∃ us, Source.generate ⟨s', models, context, switches⟩ format = .ok us := by
  obtain ⟨us, h⟩ := h
  have units := eachUnit_of_generate h fun a ha e he u hu => of_entityUnit_eq_ok (tables_of_build ha) he hu
  -- the two runs stop at different places, so they are compared by the faults that are possible at all
  refine (generate_faults c' format).exists_ok ?_
  rintro f (⟨o, ho, unbacked, -⟩ | ⟨e', he', n, clash, -⟩)
  · have entity : Entity.object o ∈ s.entities :=
      Schema.mem_entities.2 (Schema.mem_objects.1 (r.objects.mem_iff.1 ho))
    obtain ⟨-, -, -, -, -, backed⟩ := units.exists_unit entity
    dsimp only at unbacked
    rw [r.roots] at unbacked
    exact unbacked (backed o rfl)
  · obtain ⟨e, he, same⟩ := r.exists_entity he'
    obtain ⟨-, -, -, -, distinct, -⟩ := units.exists_unit he
    exact distinct n (r.clash u u' he he' same clash)

end Schema.Reordered

namespace Sdl

section Documents

variable {d d' : Document} (distinct : (d.types.map TypeDefinition.name).Nodup)
  (perm : d'.statements.Perm d.statements)

include perm

theorem types_perm : d'.types.Perm d.types := perm.filterMap _

/-- A single choice of root operation types is the same wherever it stands. -/
theorem operations_eq (single : d.operations.length ≤ 1) : d'.operations = d.operations := by
  have operations : d'.operations.Perm d.operations := perm.filterMap _
  match h : d.operations, single with
  | [], _ => exact List.perm_nil.1 (h ▸ operations)
  | [o], _ => exact List.perm_singleton.1 (h ▸ operations)

include distinct

theorem definition_perm : (Scope.ofTypes d'.types).definition = (Scope.ofTypes d.types).definition :=
  definition_congr (category?_perm (types_perm perm) distinct)

theorem resolved?_perm : d'.resolved? = d.resolved? := by
  funext t
  unfold Document.resolved?
  rw [definition_perm distinct perm]

/-- Both documents have a schema or neither of them. -/
theorem exists_schema_perm : (∃ s, d.schema = .ok s) ↔ ∃ s', d'.schema = .ok s' := by
  rw [exists_schema_iff, exists_schema_iff, definition_perm distinct perm]
  exact forall_congr' fun t => imp_congr_left (types_perm perm).mem_iff.symm

variable {s s' : Schema} (h : d.schema = .ok s) (h' : d'.schema = .ok s')

include h'

theorem schema_definitions_perm : s'.definitions = (d'.types.filterMap d.resolved?).map d'.completed := by
  have distinct' : (d'.types.map TypeDefinition.name).Nodup := ((types_perm perm).map _).nodup_iff.2 distinct
  rw [schema_definitions h' distinct', resolved?_perm distinct perm]

include h

/-- The schemas have the same definitions up to order and implementors. -/
theorem reordered_of_perm (single : d.operations.length ≤ 1) : s.Reordered s' where
  roots := by rw [schema_roots h, schema_roots h', operations_eq perm single]
  definitions := by
    have bare : ∀ c : Document, Definition.bare ∘ c.completed = Definition.bare := fun c => by
      funext x
      cases x <;> rfl
    rw [schema_definitions h distinct, schema_definitions_perm distinct perm h', List.map_map, List.map_map, bare, bare]
    exact ((types_perm perm).filterMap _).map _

end Documents

/-- The order of statements does not matter where no name is defined twice and at most one statement chooses root
operation types. -/
theorem order_irrelevant {d d' : Document} (distinct : (d.types.map TypeDefinition.name).Nodup)
    (single : d.operations.length ≤ 1) (perm : d'.statements.Perm d.statements) :
    ((∃ s, d.schema = .ok s) ↔ ∃ s', d'.schema = .ok s') ∧
    ∀ s s', d.schema = .ok s → d'.schema = .ok s' →
      (s'.roots = s.roots ∧ s.definitions = (d.types.filterMap d.resolved?).map d.completed ∧
        s'.definitions = (d'.types.filterMap d.resolved?).map d'.completed) ∧
      (∃ a a', Associations.build s = .ok a ∧ Associations.build s' = .ok a' ∧
        ∀ n, s.Defines .object n ∨ s.Defines .interface n → ∃ ns es, a.inputsOf n = .ok ns ∧ a'.inputsOf n = .ok ns ∧
          a.enumsOf n = .ok es ∧ a'.enumsOf n = .ok es) ∧
      ∀ models context switches format,
        (∃ us, Source.generate ⟨s, models, context, switches⟩ format = .ok us) ↔
          ∃ us, Source.generate ⟨s', models, context, switches⟩ format = .ok us := by
  refine ⟨exists_schema_perm distinct perm, fun s s' h h' => ?_⟩
  have distinct' : (d'.types.map TypeDefinition.name).Nodup := ((types_perm perm).map _).nodup_iff.2 distinct
  have u : s.Unambiguous := schema_unambiguous h distinct
  have u' : s'.Unambiguous := schema_unambiguous h' distinct'
  have r : s.Reordered s' := reordered_of_perm distinct perm h h' single
  refine ⟨⟨r.roots, schema_definitions h distinct, schema_definitions_perm distinct perm h'⟩, ?_, ?_⟩
  · obtain ⟨a, ha⟩ := exists_build (schema_consistent h)
    obtain ⟨a', ha'⟩ := exists_build (schema_consistent h')
    refine ⟨a, a', ha, ha', fun n hn => ?_⟩
    obtain ⟨p, hp, rfl⟩ := Schema.exists_fieldOwner hn
    exact r.tables u u' (tables_of_build ha) (tables_of_build ha') hp
  · intro models context switches format
    exact ⟨r.exists_generate u (schema_consistent h') u', r.symm.exists_generate u' (schema_consistent h) u⟩

/-- `library` from its end to its beginning, with each name used before it is defined. -/
def libraryReversed : Document := ⟨library.statements.reverse⟩

/-- Typings are generated from `library` in both directions. -/
theorem order_irrelevant_library : ∃ s', libraryReversed.schema = .ok s' ∧ s'.roots = librarySchema.roots ∧
    ∃ us, Source.generate ⟨s', librarySource.models, none, ⟨true, false⟩⟩ .passthrough = .ok us := by
  have perm : libraryReversed.statements.Perm library.statements := List.reverse_perm _
  obtain ⟨accepted, same⟩ := order_irrelevant (by decide) (by decide) perm
  obtain ⟨s', h'⟩ := accepted.1 ⟨_, library_accepted⟩
  obtain ⟨⟨roots, -⟩, -, generate⟩ := same _ s' library_accepted h'
  exact ⟨s', h', roots, (generate _ _ _ _).1 library_generates⟩

end Sdl

end SchemaTypings

import SchemaTypings.Proofs.AbstractTypes
import SchemaTypings.Proofs.UnitTexts

/-!
# Imports between units

The root unit imports the aggregates of all entities, and entity units import enums. Each of these units is made without
a look at the one that it imports from, so that they have to agree on names, on the files of units, and on which of them
are there at all.

- `RootUnit.LeadsTo`: what the root unit says about one entity, as a record and in its text;
- `Source.EnumResolves`: what the enum unit says about one enum of a document;
- `unit_imports_resolve`: every import between generated units leads to the one declaration of its name.
-/

namespace SchemaTypings

open TypeScript

/-! ## The root unit -/

/-- A condition that holds of what one element of a list is mapped to selects that value alone. -/
theorem filter_map_eq_singleton {α β : Type} [DecidableEq α] {f : α → β} {p : β → Bool} {xs : List α} {x : α}
    (distinct : xs.Nodup) (hx : x ∈ xs) (only : ∀ y ∈ xs, p (f y) = true ↔ y = x) : (xs.map f).filter p = [f x] := by
  have selected : xs.filter (p ∘ f) = [x] := by
    have same : xs.filter (p ∘ f) = xs.filter (· == x) := List.filter_congr fun y hy => by
      rw [Bool.eq_iff_iff, Function.comp_apply, only y hy, beq_iff_eq]
    rw [same, List.filter_beq, List.count_eq_one_of_mem distinct hx, List.replicate_one]
  rw [List.filter_map, selected, List.map_singleton]

/-- The root unit says one thing about an entity: its aggregate is imported once, from the module of the entity, and one
member has the name of the entity and the type of the aggregate. In its text the import has a line, and the map with the
member is exported. -/
structure RootUnit.LeadsTo (r : RootUnit) (e : Entity) (optional : Bool) : Prop where
  imports : r.imports.filter (fun i => i.module = unitModule e.name ∨ aggregateName e.name ∈ i.names) =
    [⟨[aggregateName e.name], unitModule e.name⟩]
  members : r.map.members.filter (fun m => m.key = e.name ∨ m.value = .ident (aggregateName e.name)) =
    [⟨e.name, .ident (aggregateName e.name), optional⟩]
  line : r.output.Imports ⟨[aggregateName e.name], unitModule e.name⟩
  exported : r.output.Exports (.interface r.map)

theorem unitModule_injective : Function.Injective unitModule := fun m n h => by
  have same := congrArg String.toList h
  simp only [unitModule, String.toList_append, List.append_cancel_left_eq] at same
  exact String.toList_inj.1 same

theorem aggregateName_injective : Function.Injective aggregateName := fun m n h => by
  have same := congrArg String.toList h
  simp only [aggregateName, String.toList_append, List.append_cancel_right_eq] at same
  exact String.toList_inj.1 same

theorem RootUnit.leadsTo {s : Schema} (u : s.Unambiguous) (switches : Switches) {e : Entity} (he : e ∈ s.entities) :
    (build s switches).LeadsTo e (isOptional e) := by
  have distinct : s.entities.Nodup := (Schema.nodup_entities u.distinct).of_map
  have named : ∀ y ∈ s.entities, y.name = e.name ↔ y = e := fun y hy =>
    ⟨List.inj_on_of_nodup_map (Schema.nodup_entities u.distinct) hy he, congrArg Entity.name⟩
  constructor
  · refine filter_map_eq_singleton distinct he fun y hy => ?_
    simp [aggregateImport, unitModule_injective.eq_iff, aggregateName_injective.eq_iff,
      @eq_comm _ e.name, named y hy]
  · refine filter_map_eq_singleton distinct he fun y hy => ?_
    simp [mapMember, TypeExpr.ident, aggregateName_injective.eq_iff, named y hy]
  · exact imports_of_mem (List.mem_map_of_mem he)
  · exact exports_map _

/-! ## The enum unit -/

/-- An enum of a document is exported by the enum unit, with its values in order and without repetitions. -/
def Source.EnumResolves (src : Source) (d : Sdl.Document) (us : List OutputUnit) (name : String) : Prop :=
  ∃ values, d.enumClauses.filter (·.1 = name) = [(name, values)] ∧
    ∃ u ∈ us, u.path = unitPath enumsUnit ∧ u.content = enumsText src.schema.enums ∧
      u.Exports (.alias ⟨.ident name, .choice (values.eraseDups.map .literal)⟩)

/-- The declaration of an enum is a choice between its values. -/
theorem EnumType.declaration_eq (e : EnumType) :
    e.declaration = .alias ⟨.ident e.name, .choice (e.values.eraseDups.map .literal)⟩ := by
  have atoms : ∀ t ∈ e.values.map TypeExpr.literal, t.alternatives = [t] := by
    intro t ht
    obtain ⟨v, -, rfl⟩ := List.mem_map.1 ht
    rfl
  unfold declaration
  rw [TypeExpr.union_eq_choice atoms, eraseDups_map_of_injective TypeExpr.literal_injective]

theorem exports_enum {es : List EnumType} {e : EnumType} (he : e ∈ es) :
    OutputUnit.Exports ⟨unitPath enumsUnit, false, enumsText es⟩ e.declaration := by
  have declared : e.declaration.exported ∈ es.map fun e => e.declaration.exported := List.mem_map_of_mem he
  exact OutputUnit.exports_of_mem declared editable rfl

section Enums

variable {d : Sdl.Document} {src : Source} (accepted : d.schema = .ok src.schema)
  (distinct : (d.types.map Sdl.TypeDefinition.name).Nodup)

include accepted distinct

/-- The enums that an entity refers to are exported by the enum unit, which is there because of them. -/
theorem enum_resolves {e : Entity} {us : List OutputUnit} (enums : enumsOutput src.schema.enums ⊆ us) {n : String}
    (h : src.schema.RefersToEnum e n) : src.EnumResolves d us n := by
  have c : src.schema.Consistent := Sdl.schema_consistent accepted
  have u : src.schema.Unambiguous := Sdl.schema_unambiguous accepted distinct
  obtain ⟨r, hr, hc, rfl⟩ := Schema.exists_enum_reference h
  have defines : src.schema.Defines .enum r.name := hc ▸ c.references r hr (by simp [hc])
  obtain ⟨x, hx, name⟩ := Schema.defines_enum.1 defines
  have hx : x ∈ src.schema.enums := Schema.mem_enums.2 hx
  refine ⟨x.values, ?_, ⟨unitPath enumsUnit, false, enumsText src.schema.enums⟩, enums ?_, rfl, rfl, ?_⟩
  · rw [← name, ← Sdl.schema_enumClauses accepted]
    refine filter_map_eq_singleton (Schema.nodup_enums u.distinct).of_map hx fun y hy => ?_
    rw [decide_eq_true_eq]
    exact ⟨List.inj_on_of_nodup_map (Schema.nodup_enums u.distinct) hy hx, congrArg EnumType.name⟩
  · unfold enumsOutput
    rw [if_neg (by simpa using List.ne_nil_of_mem hx)]
    exact List.mem_singleton_self _
  · rw [← name, ← x.declaration_eq]
    exact exports_enum hx

end Enums

/-! ## All imports -/

/-- The imports that have to do with an entity and its unit `u` lead somewhere: the root unit imports one aggregate for
the entity, which is what `u` declares under that name, and whatever `u` imports from the enum unit is there. -/
structure Source.Linked (src : Source) (d : Sdl.Document) (us : List OutputUnit) (e : Entity) (u : EntityUnit) :
    Prop where
  root : (RootUnit.build src.schema src.switches).output ∈ us
  aggregate : (RootUnit.build src.schema src.switches).LeadsTo e (RootUnit.isOptional e)
  optional : RootUnit.isOptional e = false ↔ ∃ o, e = .object o
  unit : u.output ∈ us ∧ u.output.path = unitPath e.name
  declared : ∃ x : Interface, u.declarations.filter (·.name = aggregateName e.name) = [.interface x] ∧
    u.output.Exports (.interface x)
  enums : ∃ rest names, u.imports = rest ++ EntityUnit.enumsImport names ∧
    (∀ n, n ∈ names ↔ src.schema.RefersToEnum e n) ∧ ∀ n ∈ names, src.EnumResolves d us n

/-- Every import between the units that are generated from an accepted document with distinct names leads to the one
declaration of its name. -/
theorem unit_imports_resolve {d : Sdl.Document} {src : Source} (accepted : d.schema = .ok src.schema)
    (distinct : (d.types.map Sdl.TypeDefinition.name).Nodup) {us : List OutputUnit}
    (generated : src.generate .passthrough = .ok us) : src.EachUnit .passthrough us (src.Linked d us) := by
  have u : src.schema.Unambiguous := Sdl.schema_unambiguous accepted distinct
  have units : src.EachUnit .passthrough us fun _ _ => True := eachUnit_of_generate generated fun _ _ _ _ _ _ => trivial
  obtain ⟨listed, enums, root⟩ := units.mem
  rw [formatted_passthrough] at enums
  refine listed.imp fun a e v ha he hv ⟨_, listed⟩ => ?_
  have t : Tables src.schema a := tables_of_build ha
  obtain ⟨x, g, -, parts⟩ := entityUnit_eq_ok hv
  obtain ⟨aggregate, unique⟩ := aggregate_unique hv (congrArg EntityUnit.declarations parts)
  obtain ⟨names, hn, -, refers⟩ := enums_eq (p := src.projection a) t he x.inputs_eq
  cases hn.symm.trans x.enums_eq
  have entity : v.entity = e.name := congrArg EntityUnit.entity parts
  constructor
  · exact root
  · exact RootUnit.leadsTo u src.switches he
  · cases e <;> simp [RootUnit.isOptional]
  · exact ⟨listed, congrArg unitPath entity⟩
  · have once : v.declarations.Nodup := (nodup_declarations hv).of_map
    refine ⟨x.aggregate, ?_, EntityUnit.exports_of_mem aggregate⟩
    have chosen : ∀ y ∈ v.declarations, decide (y.name = aggregateName e.name) = true ↔ y = .interface x.aggregate := by
      intro y hy
      rw [decide_eq_true_eq]
      exact ⟨unique y hy, fun same => same ▸ rfl⟩
    have selected := filter_map_eq_singleton (f := id) (p := (·.name = aggregateName e.name)) once aggregate chosen
    rwa [List.map_id] at selected
  · refine ⟨_, x.enums, congrArg EntityUnit.imports parts, refers, fun n hn => ?_⟩
    exact enum_resolves accepted distinct enums ((refers n).1 hn)

theorem unit_imports_resolve_library : ∃ us, librarySource.generate .passthrough = .ok us ∧
    librarySource.EachUnit .passthrough us (librarySource.Linked library us) := by
  obtain ⟨us, generated⟩ := library_generates
  exact ⟨us, generated, unit_imports_resolve library_accepted (by decide) generated⟩

end SchemaTypings

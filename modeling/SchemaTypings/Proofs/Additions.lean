import SchemaTypings.Proofs.Dependence
import SchemaTypings.Proofs.Scopes

/-!
# Unrelated additions

A document may be extended, at any place, by a definition that nothing refers to and that does not refer to any abstract
type. Every table of the schema is made anew then, but says what it said before about all names of the old schema.

- `Schema.Extends`: a schema has further definitions among those of another one;
- `Extends.sameTables`: its tables agree with the old ones on all names in the old schema;
- `Sdl.exists_extends`: an unrelated definition extends the schema of a document in this way;
- `Sdl.unrelated_addition`: the units of all other entities are the same before and after.
-/

namespace SchemaTypings

/-! ## Schemas with further definitions -/

theorem Schema.contains_of_defines {s : Schema} {c : Category} {n : String} (h : s.Defines c n) : s.Contains n := by
  obtain ⟨d, hd, rfl, -⟩ := h
  exact .definition hd

/-- A schema has further definitions among those of another one. Their names do not stand in that schema, they are no
unions, and objects among them implement nothing. -/
structure Schema.Extends (s s' : Schema) (front new back : List Definition) : Prop where
  roots : s'.roots = s.roots
  definitions : s.definitions = front ++ back
  extended : s'.definitions = front ++ new ++ back
  fresh : ∀ x ∈ new, ¬s.Contains x.name
  unions : ∀ x ∈ new, x.union? = none
  objects : ∀ x ∈ new, ∀ o, x.object? = some o → o.implements = []

namespace Schema.Extends

variable {s s' : Schema} {front new back : List Definition} (x : s.Extends s' front new back)

include x

/-- A name of the old schema has the same last definition of each kind. -/
theorem lastOf_eq {α : Type} {f : Definition → Option α} {key : α → String}
    (named : ∀ d y, f d = some y → key y = d.name) {n : String} (hn : s.Contains n) :
    lastOf key (s'.definitions.filterMap f) n = lastOf key (s.definitions.filterMap f) n := by
  have none : lastOf key (new.filterMap f) n = none := lastOf_eq_none.2 fun y hy same => by
    obtain ⟨d, hd, hf⟩ := List.mem_filterMap.1 hy
    rw [named d y hf] at same
    exact x.fresh d hd (same ▸ hn)
  rw [x.definitions, x.extended]
  simp only [List.filterMap_append, lastOf_append, none, Option.none_or]

theorem objects_eq {n : String} (hn : s.Contains n) :
    lastOf ObjectType.name s'.objects n = lastOf ObjectType.name s.objects n :=
  x.lastOf_eq (by rintro ⟨⟩ y h <;> cases h; rfl) hn

theorem interfaces_eq {n : String} (hn : s.Contains n) :
    lastOf InterfaceType.name s'.interfaces n = lastOf InterfaceType.name s.interfaces n :=
  x.lastOf_eq (by rintro ⟨⟩ y h <;> cases h; rfl) hn

theorem input?_eq {n : String} (hn : s.Contains n) : s'.input? n = s.input? n :=
  x.lastOf_eq (by rintro ⟨⟩ y h <;> cases h; rfl) hn

theorem fieldOwners_eq {n : String} (hn : s.Contains n) :
    lastOf Prod.fst s'.fieldOwners n = lastOf Prod.fst s.fieldOwners n := by
  have objects := x.objects_eq hn
  have interfaces := x.interfaces_eq hn
  unfold fieldOwners
  simp only [lastOf_append, lastOf_map]
  exact congr (congrArg Option.or (congrArg _ interfaces)) (congrArg _ objects)

/-- What cannot be read off the further definitions is the same in both schemas. -/
theorem filterMap_eq {α : Type} {f : Definition → Option α} (none : new.filterMap f = []) :
    s'.definitions.filterMap f = s.definitions.filterMap f := by
  rw [x.definitions, x.extended]
  simp only [List.filterMap_append, none, List.append_nil]

theorem unions_eq : s'.unions = s.unions := x.filterMap_eq (List.filterMap_eq_nil_iff.2 x.unions)

theorem unionsOf_eq (object : String) : s'.unionsOf object = s.unionsOf object := by
  unfold unionsOf
  rw [x.unions_eq]

theorem declaring_eq (interface : String) : s'.declaring interface = s.declaring interface := by
  have none : (new.filterMap Definition.object?).flatMap (fun o => o.implements.map (o, ·)) = [] := by
    refine List.flatMap_eq_nil_iff.2 fun o ho => ?_
    obtain ⟨d, hd, hf⟩ := List.mem_filterMap.1 ho
    rw [x.objects d hd o hf, List.map_nil]
  unfold declaring conformances Schema.objects
  rw [x.definitions, x.extended]
  simp only [List.filterMap_append, List.flatMap_append, none, List.append_nil]

/-- Objects of the old schema are found in the new one. -/
theorem exists_objects {names : List String} (known : ∀ n ∈ names, s.Contains n) {os : List ObjectType}
    (h : names.mapM s.object = .ok os) : names.mapM s'.object = .ok os := by
  have each : ∀ n ∈ names, Persists (fun _ => False) (s.object n) (s'.object n) := fun n hn =>
    ⟨fun o ho => object_eq_ok.2 ((x.objects_eq (known n hn)).trans (object_eq_ok.1 ho)),
      fun _ impossible => impossible.elim⟩
  exact (Persists.mapM each).result os h

/-- The tables of both schemas say the same about the names of the old one. -/
theorem sameTables (c : s.Consistent) {a a' : Associations} (t : Tables s a) (t' : Tables s' a') :
    s.SameTables a a' := by
  have inputTypes : ∀ {n}, s.Contains n → a.inputTypes.get? n = a'.inputTypes.get? n := fun hn => by
    rw [t.inputTypes, t'.inputTypes, x.input?_eq hn]
  intro n hn
  constructor
  · exact find_congr (inputTypes hn)
  · refine find_congr (t.inputsByOwner.get?_eq t'.inputsByOwner (x.fieldOwners_eq hn) fun p ns ns' _ walk walk' => ?_)
    have known : ∀ n i, a.inputTypes.get? n = some i → a'.inputTypes.get? n = some i := fun n i hi => by
      rw [← inputTypes (contains_input (t.inputTypes ▸ hi))]
      exact hi
    exact Except.ok.inj ((reachableFrom_mono known walk).symm.trans walk')
  · obtain ⟨listed, table, joined⟩ := t.implementors
    obtain ⟨listed', table', joined'⟩ := t'.implementors
    have same : listed.get? n = listed'.get? n := table.get?_eq table' (x.interfaces_eq hn) fun i os os' hi ho ho' => by
      have known : ∀ n ∈ i.implementors, s.Contains n := fun n hn => contains_of_defines (c.implementors i hi n hn)
      exact Except.ok.inj ((x.exists_objects known ho).symm.trans ho')
    refine find_congr ?_
    rw [joined, joined', same, x.declaring_eq]
  · have last : lastOf UnionType.name s'.unions n = lastOf UnionType.name s.unions n := by rw [x.unions_eq]
    refine find_congr (t.membersByUnion.get?_eq t'.membersByUnion last fun u os os' hu ho ho' => ?_)
    have known : ∀ n ∈ u.members, s.Contains n := fun n hn => contains_of_defines (c.members u hu n hn)
    exact Except.ok.inj ((x.exists_objects known ho).symm.trans ho')
  · refine find_congr (t.unionsByMember.get?_eq t'.unionsByMember (x.objects_eq hn) fun o us us' _ hu hu' => ?_)
    rw [hu, hu', x.unionsOf_eq]
  · refine find_congr (t.enumsByOwner.get?_eq t'.enumsByOwner (x.fieldOwners_eq hn) fun p es es' _ he he' => ?_)
    rw [he, he']

end Schema.Extends

/-! ## Documents with a further definition -/

namespace Sdl

/-- A definition takes no part in abstract types: it is no union, and an object implements nothing. -/
def TypeDefinition.Unrelated : TypeDefinition → Prop
  | .union _ _ => False
  | .object _ is _ => is = []
  | .scalar _ | .interface .. | .enum .. | .input .. => True

/-- The names in a schema are defined by the document that it comes from or are those of built-in scalars. -/
theorem Resolution.known_of_contains {ts : List TypeDefinition} (x : Resolution ts) {roots : Roots} {n : String}
    (hn : (x.schema roots).Contains n) : n ∈ ts.map TypeDefinition.name ∨ n ∈ builtinScalars := by
  have defined : ∀ y ∈ (x.schema roots).definitions, y.name ∈ ts.map TypeDefinition.name := by
    intro y hy
    obtain ⟨z, hz, names, -, rfl⟩ := exists_of_mem_schema hy
    rw [name_withImplementors]
    exact x.sublist_names.subset (List.mem_map_of_mem hz)
  cases hn with
  | definition hy => exact .inl (defined _ hy)
  | reference hr => exact known_of_category? (sound_of_mem_references hr)
  | conformance ho hi =>
    obtain ⟨y, hy, rfl, -⟩ := x.consistent.implements _ ho n hi
    exact .inl (defined y hy)

section Insertion

variable {front back : List TypeDefinition} {t : TypeDefinition} (unrelated : t.Unrelated)

include unrelated

theorem implementorsOf_insert : implementorsOf (front ++ t :: back) = implementorsOf (front ++ back) := by
  funext interface
  unfold implementorsOf
  rw [List.flatMap_append, List.flatMap_append, List.flatMap_cons]
  cases t with
  | union n ms => exact unrelated.elim
  | object n is fs =>
    obtain rfl : is = [] := unrelated
    rfl
  | _ => rfl

omit unrelated in
/-- A definition that resolves without a further one resolves to the same with it. -/
theorem definition_insert (new : t.name ∉ (front ++ back).map TypeDefinition.name) (custom : t.name ∉ builtinScalars)
    {u : TypeDefinition} {o : Option Definition} (h : (Scope.ofTypes (front ++ back)).definition u = .ok o) :
    (Scope.ofTypes (front ++ t :: back)).definition u = .ok o := by
  have categories : ∀ n, Persists (fun _ => False) ((Scope.ofTypes (front ++ back)).category n)
      ((Scope.ofTypes (front ++ t :: back)).category n) := by
    refine fun n => ⟨fun c hc => ?_, fun _ impossible => impossible.elim⟩
    have found := category_eq_ok.1 hc
    have other : n ≠ t.name := by
      rintro rfl
      exact (known_of_category? found).elim new custom
    exact category_eq_ok.2 ((category?_insert other).trans found)
  exact (definition_persists categories u).result o h

/-- The definitions of a document stay as they are around a further one. -/
theorem fillImplementors_insert (front back : List TypeDefinition) (F : List Definition) {B : List Definition}
    {o : Option Definition} (apart : ∀ y ∈ B, ∀ x ∈ o, y.name ≠ x.name) : ∃ f names b,
      fillImplementors (front ++ back) [] (F ++ B) = f ++ b ∧
        fillImplementors (front ++ t :: back) [] (F ++ o.toList ++ B) =
          f ++ (o.map (withImplementors names)).toList ++ b := by
  have same : implementorsOf (front ++ t :: back) = implementorsOf (front ++ back) := implementorsOf_insert unrelated
  obtain ⟨seen, -, -, first⟩ := fillImplementors_append (front ++ back) F []
  obtain ⟨seen', kept, new, rest⟩ := fillImplementors_append (front ++ back) o.toList seen
  -- whether a name has been seen is the same for the definitions behind the further one
  have behind : fillImplementors (front ++ back) seen' B = fillImplementors (front ++ back) seen B := by
    refine fillImplementors_congr rfl fun y hy => ⟨fun hs => ?_, fun hs => kept hs⟩
    rcases List.mem_append.1 (new hs) with hn | hs
    · obtain ⟨x, hx, name⟩ := List.mem_map.1 hn
      exact absurd name.symm (apart y hy x (Option.mem_toList.1 hx))
    · exact hs
  have own : ∃ names, fillImplementors (front ++ back) seen o.toList = (o.map (withImplementors names)).toList := by
    cases o with
    | none => exact ⟨[], rfl⟩
    | some x =>
      obtain ⟨_, -, -, filled⟩ := fillImplementors_cons (front ++ back) seen x
      exact ⟨_, filled []⟩
  obtain ⟨names, own⟩ := own
  refine ⟨_, names, _, first B, ?_⟩
  rw [fillImplementors_congr same fun _ _ => Iff.rfl, List.append_assoc, first, rest, behind, own, List.append_assoc]

omit unrelated in
/-- All definitions but the further one resolve to what they resolved to before. -/
theorem Resolution.exists_insert (new : t.name ∉ (front ++ back).map TypeDefinition.name)
    (custom : t.name ∉ builtinScalars) (x : Resolution (front ++ back)) (x' : Resolution (front ++ t :: back)) :
    ∃ F o B, x.definitions = F ++ B ∧ x'.definitions = F ++ o.toList ++ B ∧
      (Scope.ofTypes (front ++ t :: back)).definition t = .ok o := by
  obtain ⟨F, B, hF, hB, results⟩ := mapM_append_eq_ok.1 x.steps
  obtain ⟨F', rest, hF', hrest, results'⟩ := mapM_append_eq_ok.1 x'.steps
  rw [List.mapM_cons] at hrest
  obtain ⟨o, ho, hrest⟩ := bind_eq_ok.1 hrest
  obtain ⟨B', hB', hrest⟩ := bind_eq_ok.1 hrest
  cases hrest
  have again : ∀ {us : List TypeDefinition} {os os' : List (Option Definition)},
      us.mapM (Scope.ofTypes (front ++ back)).definition = .ok os →
        us.mapM (Scope.ofTypes (front ++ t :: back)).definition = .ok os' → os' = os := fun hos hos' => by
    have kept := mapM_eq_ok.2 ((mapM_eq_ok.1 hos).imp fun u r hu => definition_insert new custom hu)
    exact Except.ok.inj (hos'.symm.trans kept)
  obtain rfl := again hF hF'
  obtain rfl := again hB hB'
  refine ⟨F'.filterMap id, o, B'.filterMap id, ?_, ?_, ho⟩
  · rw [definitions, results, List.filterMap_append]
  · rw [definitions, results', List.filterMap_append, List.append_assoc]
    cases o <;> rfl

theorem Resolves.isolated {scope : Scope} {y : Definition} (h : Resolves scope t y) :
    y.union? = none ∧ ∀ z, y.object? = some z → z.implements = [] := by
  cases y with
  | union u =>
    obtain ⟨rfl, -⟩ := h.members u rfl
    exact unrelated.elim
  | object z =>
    obtain ⟨⟨fs, rfl⟩, -⟩ := h.implements z rfl
    refine ⟨rfl, fun z' hz => ?_⟩
    cases hz
    exact unrelated
  | _ => exact ⟨rfl, nofun⟩

/-- A definition that is new to a document and unrelated to it extends the schema, unless it is that of a scalar. -/
theorem Resolution.exists_extends (new : t.name ∉ (front ++ back).map TypeDefinition.name)
    (custom : t.name ∉ builtinScalars) (x : Resolution (front ++ back)) (x' : Resolution (front ++ t :: back))
    (roots : Roots) : ∃ f o b, (x.schema roots).Extends (x'.schema roots) f o.toList b ∧
      ((t.category = .scalar ∧ o = none) ∨ ∃ y, o = some y ∧ y.name = t.name ∧ y.category = t.category) := by
  obtain ⟨F, o, B, definitions, definitions', resolved⟩ := x.exists_insert new custom x'
  have resolves := definition_resolves resolved
  have apart : ∀ y ∈ B, ∀ z ∈ o, y.name ≠ z.name := by
    rintro y hy z rfl same
    obtain ⟨-, none⟩ | ⟨-, _, some, resolves⟩ := resolves
    · cases none
    · cases some
      refine new (x.sublist_names.subset ?_)
      rw [← resolves.name, ← same, definitions]
      exact List.mem_map_of_mem (List.mem_append_right _ hy)
  obtain ⟨f, names, b, filled, filled'⟩ := fillImplementors_insert unrelated front back F apart
  rw [← definitions] at filled
  rw [← definitions'] at filled'
  refine ⟨f, o.map (withImplementors names), b, ?_⟩
  obtain ⟨scalar, rfl⟩ | ⟨-, y, rfl, resolves⟩ := resolves
  · exact ⟨⟨rfl, filled, filled', nofun, nofun, nofun⟩, .inl ⟨scalar, rfl⟩⟩
  · obtain ⟨union, object⟩ := resolves.isolated unrelated
    have name : (withImplementors names y).name = t.name := name_withImplementors.trans resolves.name
    refine ⟨⟨rfl, filled, filled', ?_, ?_, ?_⟩,
      .inr ⟨_, rfl, name, category_withImplementors.trans resolves.category⟩⟩
    · intro z hz hn
      rw [List.mem_singleton.1 hz, name] at hn
      exact (x.known_of_contains hn).elim new custom
    · intro z hz
      rw [List.mem_singleton.1 hz, union?_withImplementors, union]
    · intro z hz
      rw [List.mem_singleton.1 hz, object?_withImplementors]
      exact object

end Insertion

end Sdl

/-! ## Units of both schemas -/

/-- Units are all that is generated from a source: first those in the rows, which stand next to their entities, and
behind them those of the enums and of the root. -/
structure Source.Lists (src : Source) (us : List OutputUnit) (rows : List (Entity × EntityUnit)) : Prop where
  entities : rows.map Prod.fst = src.schema.entities
  made : ∃ a, Associations.build src.schema = .ok a ∧ ∀ r ∈ rows, src.entityUnit a r.1 = .ok r.2
  paths : ∀ r ∈ rows, r.2.output.path = unitPath r.1.name
  units : us = rows.map (fun r => r.2.output) ++ enumsOutput src.schema.enums ++
    [(RootUnit.build src.schema src.switches).output]

namespace Source

variable {src : Source} {us : List OutputUnit}

theorem path_of_entityUnit {a : Associations} {e : Entity} {u : EntityUnit} (h : src.entityUnit a e = .ok u) :
    u.output.path = unitPath e.name := by
  obtain ⟨_, -, h⟩ := bind_eq_ok.1 h
  obtain ⟨_, -, h⟩ := bind_eq_ok.1 h
  cases h
  rfl

theorem lists_of_generate (h : src.generate .passthrough = .ok us) : ∃ rows, src.Lists us rows := by
  rw [generate_passthrough] at h
  obtain ⟨a, ha, h⟩ := bind_eq_ok.1 h
  obtain ⟨units, loop, h⟩ := bind_eq_ok.1 h
  cases h
  obtain ⟨rows, entities, rfl, each⟩ := exists_rows_of_mapM loop
  exact ⟨rows, entities, ⟨a, ha, each⟩, fun r hr => path_of_entityUnit (each r hr), by rw [List.map_map]; rfl⟩

theorem Lists.generate {rows : List (Entity × EntityUnit)} (h : src.Lists us rows) :
    src.generate .passthrough = .ok us := by
  obtain ⟨a, ha, each⟩ := h.made
  have loop := mapM_of_rows each
  rw [h.entities] at loop
  rw [generate_passthrough, h.units]
  refine bind_eq_ok.2 ⟨a, ha, bind_eq_ok.2 ⟨_, loop, ?_⟩⟩
  rw [List.map_map]
  rfl

end Source

section Units

variable {s s' : Schema} {front new back : List Definition} {models : ModelMap} {context : Option ContextType}
  {switches : Switches} (x : s.Extends s' front new back) (c : s.Consistent)

include x c

theorem Schema.Extends.entityUnit_eq {a a' : Associations} (t : Tables s a) (t' : Tables s' a') {e : Entity}
    (he : e ∈ s.entities) : Source.entityUnit ⟨s, models, context, switches⟩ a e =
      Source.entityUnit ⟨s', models, context, switches⟩ a' e := by
  have answers : s.Answers (fun _ => True) models models := fun _ _ _ => .refl _
  exact (entityUnit_persists answers x.roots t (x.sameTables c t t') he).eq fun _ => trivial

/-- The units of an extended schema are those of the schema with those of the further definitions among them. -/
theorem Schema.Extends.exists_lists {vs : List OutputUnit}
    (generated : Source.generate ⟨s', models, context, switches⟩ .passthrough = .ok vs) :
    ∃ us pre own post, Source.Lists ⟨s, models, context, switches⟩ us (pre ++ post) ∧
      Source.Lists ⟨s', models, context, switches⟩ vs (pre ++ own ++ post) ∧
      own.map Prod.fst = new.filterMap Definition.entity? := by
  obtain ⟨rows, listed⟩ := Source.lists_of_generate generated
  have entities := listed.entities
  simp only [Schema.entities, x.extended, List.filterMap_append, List.map_eq_append_iff] at entities
  obtain ⟨_, post, rfl, ⟨pre, own, rfl, hpre, hown⟩, hpost⟩ := entities
  obtain ⟨a', ha', made⟩ := listed.made
  obtain ⟨a, ha⟩ := exists_build c
  have old : (pre ++ post).map Prod.fst = s.entities := by
    rw [List.map_append, hpre, hpost, Schema.entities, x.definitions, List.filterMap_append]
  have kept : ∀ r ∈ pre ++ post, r ∈ pre ++ own ++ post :=
    fun r hr => ((List.sublist_append_left pre own).append_right post).subset hr
  refine ⟨_, pre, own, post, ⟨old, ⟨a, ha, fun r hr => ?_⟩, fun r hr => listed.paths r (kept r hr), rfl⟩, listed, hown⟩
  have he : r.1 ∈ s.entities := old ▸ List.mem_map_of_mem hr
  exact (x.entityUnit_eq c (tables_of_build ha) (tables_of_build ha') he).trans (made r (kept r hr))

end Units

namespace Sdl

/-- An addition to a document that is new and unrelated to it leaves the units of all entities as they are. If typings
are generated with it, they are generated without it, and the same units stand next to the same entities. The addition
may have a unit of its own; besides, it can only change the enum unit, if it is an enum, and the root unit, if it is an
entity. -/
theorem unrelated_addition {d d' : Document} {front back : List Statement} {t : TypeDefinition}
    (original : d.statements = front ++ back) (added : d'.statements = front ++ .definition t :: back)
    (unrelated : t.Unrelated) (new : t.name ∉ d.types.map TypeDefinition.name) (custom : t.name ∉ builtinScalars)
    {s s' : Schema} (h : d.schema = .ok s) (h' : d'.schema = .ok s') {models : ModelMap}
    {context : Option ContextType} {switches : Switches} {vs : List OutputUnit}
    (generated : Source.generate ⟨s', models, context, switches⟩ .passthrough = .ok vs) :
    ∃ us pre own post, Source.generate ⟨s, models, context, switches⟩ .passthrough = .ok us ∧
      Source.Lists ⟨s, models, context, switches⟩ us (pre ++ post) ∧
      Source.Lists ⟨s', models, context, switches⟩ vs (pre ++ own ++ post) ∧
      own.map (fun r => r.1.name) = (if t.category = .object ∨ t.category = .interface then [t.name] else []) ∧
      (t.category ≠ .enum → s'.enums = s.enums) ∧
      (own = [] → RootUnit.build s' switches = RootUnit.build s switches) := by
  have types : d.types = front.filterMap Statement.definition? ++ back.filterMap Statement.definition? := by
    rw [Document.types, original, List.filterMap_append]
  have types' : d'.types = front.filterMap Statement.definition? ++ t :: back.filterMap Statement.definition? := by
    rw [Document.types, added, List.filterMap_append]
    rfl
  have operations : d'.operations = d.operations := by
    unfold Document.operations
    rw [original, added, List.filterMap_append, List.filterMap_append]
    rfl
  have c : s.Consistent := schema_consistent h
  have resolution := exists_resolution h
  have resolution' := exists_resolution h'
  rw [types] at resolution new
  rw [types', operations] at resolution'
  obtain ⟨x, rfl⟩ := resolution
  obtain ⟨x', rfl⟩ := resolution'
  obtain ⟨f, o, b, extends', kind⟩ := Resolution.exists_extends unrelated new custom x x' (rootsOf d.operations)
  obtain ⟨us, pre, own, post, listed, listed', entities⟩ := extends'.exists_lists c generated
  refine ⟨us, pre, own, post, listed.generate, listed, listed', ?_, fun no_enum => ?_, ?_⟩
  · have names : own.map (fun r => r.1.name) = (o.toList.filterMap Definition.entity?).map Entity.name := by
      rw [← entities, List.map_map]
      rfl
    obtain ⟨scalar, rfl⟩ | ⟨y, rfl, name, category⟩ := kind
    · simp [names, scalar]
    · rw [names, ← name, ← category]
      cases y with
      | union u => cases extends'.unions _ (List.mem_singleton_self _)
      | _ => rfl
  · refine extends'.filterMap_eq ?_
    obtain ⟨-, rfl⟩ | ⟨y, rfl, -, category⟩ := kind
    · rfl
    · rw [← category] at no_enum
      cases y with
      | enum e => exact absurd rfl no_enum
      | _ => rfl
  · rintro rfl
    have same : (x'.schema (rootsOf d.operations)).entities = (x.schema (rootsOf d.operations)).entities :=
      extends'.filterMap_eq entities.symm
    unfold RootUnit.build
    rw [same]

/-- `library` with shelves. -/
def shelves : Document := ⟨library.statements.take 5 ++
  .definition (.object "Shelf" [] [⟨"items", .list (.named "Item" true) true, []⟩]) :: library.statements.drop 5⟩

/-- The schema of `shelves`. -/
def shelvesSchema : Schema := ⟨librarySchema.definitions.take 4 ++
  .object ⟨"Shelf", [⟨"items", ⟨"Item", .interface, false, [.nonNull]⟩, []⟩], []⟩ :: librarySchema.definitions.drop 4,
  .standard⟩

theorem unrelated_addition_shelves : ∃ us vs pre own post,
    Source.generate ⟨shelvesSchema, librarySource.models, none, .off⟩ .passthrough = .ok vs ∧
      Source.generate ⟨librarySchema, librarySource.models, none, .off⟩ .passthrough = .ok us ∧
      Source.Lists ⟨librarySchema, librarySource.models, none, .off⟩ us (pre ++ post) ∧
      Source.Lists ⟨shelvesSchema, librarySource.models, none, .off⟩ vs (pre ++ own ++ post) ∧
      own.map (fun r => r.1.name) = ["Shelf"] := by
  have accepted : shelves.schema = .ok shelvesSchema := by decide
  have generates : ∃ vs, Source.generate ⟨shelvesSchema, librarySource.models, none, .off⟩ .passthrough = .ok vs :=
    exists_generate (schema_consistent accepted) .passthrough (by decide) (by decide +kernel)
  obtain ⟨vs, generated⟩ := generates
  have original : library.statements = library.statements.take 5 ++ library.statements.drop 5 :=
    (List.take_append_drop 5 _).symm
  have added : shelves.statements = library.statements.take 5 ++
      .definition (.object "Shelf" [] [⟨"items", .list (.named "Item" true) true, []⟩]) ::
        library.statements.drop 5 := rfl
  obtain ⟨us, pre, own, post, without, listed, listed', names, -⟩ := unrelated_addition original added rfl (by decide)
    (by decide) library_accepted accepted generated
  exact ⟨us, vs, pre, own, post, generated, without, listed, listed', names⟩

end Sdl

end SchemaTypings

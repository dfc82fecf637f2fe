import SchemaTypings.Proofs.Drafts
import SchemaTypings.Proofs.Formatting
import SchemaTypings.Proofs.Grouping
import SchemaTypings.Proofs.Listings
import SchemaTypings.Proofs.Needs

/-!
# The outcome of generation

From which sources typings can be generated, and what is reported for the others.

- `ModelMap.Backs`: an object has a model or can do without one;
- `Source.Clash`: two declarations in the unit of an entity would have one name;
- `entityUnit_faults`: the unit of an entity of a consistent schema fails only for an object without model or for a
  clash. No name is ever looked up in vain: consistency rules that out at every look-up;
- `generate_succeeds_iff`: units are generated if and only if all objects are backed and no names clash.
-/

namespace SchemaTypings

open TypeScript

/-! ## Objects with models -/

/-- An object is mapped to a model, is a root operation type, or is left to the default module. -/
def ModelMap.Backs (m : ModelMap) (roots : Roots) (name : String) : Prop :=
  (∃ model, m.lookup name = .external model) ∨ roots.contains name = true ∨
    (m.lookup name = .unmapped ∧ m.defaultModule.isSome = true)

/-- The identifier of the values of an object. A root operation type without a model has the value `undefined`. -/
def ModelMap.valueName (m : ModelMap) (roots : Roots) (name : String) : String :=
  match m.objectModel? roots name with
  | some model => model.typeName
  | none => "undefined"

/-- A fault names an object of the schema that is not backed. -/
def Schema.Unbacked (s : Schema) (models : ModelMap) (f : Fault) : Prop :=
  ∃ o ∈ s.objects, ¬models.Backs s.roots o.name ∧ f = .missingModel o.name

/-- What is backed has a model or is a root operation type. -/
theorem ModelMap.backs_iff {m : ModelMap} {roots : Roots} {name : String} :
    m.Backs roots name ↔ (∃ model, m.objectModel? roots name = some model) ∨ roots.contains name = true := by
  unfold ModelMap.Backs ModelMap.objectModel?
  cases hl : m.lookup name with
  | external model => simp
  | enumBacked => simp
  | unmapped =>
    cases hr : roots.contains name with
    | true => simp
    | false => simp [Option.isSome_iff_exists]

instance (m : ModelMap) (roots : Roots) (name : String) : Decidable (m.Backs roots name) :=
  decidable_of_iff ((m.objectModel? roots name).isSome = true ∨ roots.contains name = true)
    (by rw [ModelMap.backs_iff, Option.isSome_iff_exists])

theorem Schema.unbacked_of_no_model {s : Schema} {models : ModelMap} {o : ObjectType} (ho : o ∈ s.objects)
    (none : models.objectModel? s.roots o.name = none) (root : ¬s.roots.contains o.name = true) :
    s.Unbacked models (.missingModel o.name) := by
  refine ⟨o, ho, fun backed => ?_, rfl⟩
  rw [ModelMap.backs_iff, none] at backed
  rcases backed with ⟨_, h⟩ | h
  · cases h
  · exact root h

/-- The model of a needed name is missing only if the name is that of an object which is not backed. -/
theorem modelFor_faults {s : Schema} {models : ModelMap} {name : String} {k : Category}
    (object : k = .object → ∃ o ∈ s.objects, o.name = name) :
    OnlyFaults (s.Unbacked models) (modelFor models s.roots name k) := by
  intro f hf
  obtain ⟨⟨rfl, none, root⟩, rfl⟩ := modelFor_eq_error.1 hf
  obtain ⟨o, ho, rfl⟩ := object rfl
  exact Schema.unbacked_of_no_model ho none (by simp [root])

/-! ## Faults of types -/

section Types

variable {s : Schema} {p : Projection}

theorem objectType_eq_ok {name : String} {t : TypeExpr} (h : p.objectType name = .ok t) :
    p.models.Backs p.roots name ∧ t = .ident (p.models.valueName p.roots name) := by
  rw [ModelMap.backs_iff, ModelMap.valueName]
  unfold Projection.objectType at h
  cases hm : p.models.objectModel? p.roots name with
  | some m =>
    rw [hm] at h
    cases h
    exact ⟨.inl ⟨m, rfl⟩, rfl⟩
  | none =>
    rw [hm] at h
    dsimp only at h
    split at h
    · rename_i root
      cases h
      exact ⟨.inr root, rfl⟩
    · cases h

/-- The values of objects have the types of their names. -/
theorem mapM_objectType_eq {α : Type} {name : α → String} {xs : List α} {ts : List TypeExpr}
    (h : xs.mapM (fun x => p.objectType (name x)) = .ok ts) :
    ts = xs.map fun x => .ident (p.models.valueName p.roots (name x)) := by
  rw [← List.map_id ts]
  exact map_eq_of_mapM h fun x t ht => (objectType_eq_ok ht).2

/-- The members for arguments have the types of these, and may be left out where these are nullable. -/
theorem forall₂_inputMembers {as : List Argument} {ms : List (Member TypeExpr)} (h : p.inputMembers as = .ok ms) :
    List.Forall₂ (fun a m => p.project a.type = .ok m.value ∧ m.optional = a.type.isNullable) as ms := by
  refine (mapM_eq_ok.1 h).imp fun a m hm => ?_
  obtain ⟨value, hv, hm⟩ := bind_eq_ok.1 hm
  cases hm
  exact ⟨hv, rfl⟩

variable (c : s.Consistent) (t : Tables s p.associations) (hr : p.roots = s.roots)

include hr

theorem objectType_faults {o : ObjectType} (ho : o ∈ s.objects) :
    OnlyFaults (s.Unbacked p.models) (p.objectType o.name) := by
  unfold Projection.objectType
  split
  · exact .ok _
  · rename_i none
    split
    · exact .ok _
    · rename_i root
      exact .error (Schema.unbacked_of_no_model ho (hr ▸ none) (hr ▸ root))

theorem objectTypes_faults {os : List ObjectType} (h : ∀ o ∈ os, o ∈ s.objects) :
    OnlyFaults (s.Unbacked p.models) (p.objectTypes os) :=
  (OnlyFaults.mapM fun o ho => objectType_faults hr (h o ho)).bind fun _ _ => .ok _

include t

theorem interfaceType_faults {name : String} (h : s.Defines .interface name) :
    OnlyFaults (s.Unbacked p.models) (p.interfaceType name) := by
  obtain ⟨os, hos⟩ := t.exists_implementors h
  refine (OnlyFaults.of_eq_ok hos).bind fun os' hos' => ?_
  exact objectTypes_faults hr fun o ho => t.mem_of_implementors hos' ho

theorem unionType_faults {name : String} (h : s.Defines .union name) :
    OnlyFaults (s.Unbacked p.models) (p.unionType name) := by
  obtain ⟨os, hos⟩ := t.exists_members h
  refine (OnlyFaults.of_eq_ok hos).bind fun os' hos' => ?_
  exact objectTypes_faults hr fun o ho => t.mem_of_members hos' ho

theorem entityType_faults {e : Entity} (he : e ∈ s.entities) : OnlyFaults (s.Unbacked p.models) (p.entityType e) := by
  have definition : e.definition ∈ s.definitions := Schema.mem_entities.1 he
  cases e with
  | object o => exact objectType_faults hr (Schema.mem_objects.2 definition)
  | interface i => exact interfaceType_faults t hr (Schema.defines_interface.2 ⟨i, definition, rfl⟩)
  | union u => exact unionType_faults t hr (Schema.defines_union.2 ⟨u, definition, rfl⟩)

include c

theorem project_faults {r : TypeRef} (h : r ∈ s.references) : OnlyFaults (s.Unbacked p.models) (p.project r) := by
  have named : OnlyFaults (s.Unbacked p.models) (p.namedType r.name r.category) := by
    have defined := c.references r h
    cases hc : r.category with
    | scalar => exact .ok _
    | enum => exact .ok _
    | input => exact .ok _
    | object =>
      rw [hc] at defined
      obtain ⟨o, ho, name⟩ := Schema.defines_object.1 (defined (by simp))
      rw [← name]
      exact objectType_faults hr (Schema.mem_objects.2 ho)
    | interface =>
      rw [hc] at defined
      exact interfaceType_faults t hr (defined (by simp))
    | union =>
      rw [hc] at defined
      exact unionType_faults t hr (defined (by simp))
  exact named.bind fun _ _ => .ok _

theorem inputMembers_faults {as : List Argument} (h : ∀ b ∈ as, b.type ∈ s.references) :
    OnlyFaults (s.Unbacked p.models) (p.inputMembers as) :=
  OnlyFaults.mapM fun b hb => (project_faults c t hr (h b hb)).bind fun _ _ => .ok _

/-! ## Faults of declarations -/

variable {e : Entity} (he : e ∈ s.entities)

include he

theorem typeMembers_faults (context : TypeExpr) : OnlyFaults (s.Unbacked p.models) (p.typeMembers context e) := by
  have definition : e.definition ∈ s.definitions := Schema.mem_entities.1 he
  cases e with
  | object o =>
    obtain ⟨ns, hns, -, possible⟩ := possibleTypes_eq t (Schema.mem_objects.2 definition)
      (c.implements o (Schema.mem_objects.2 definition))
    refine (OnlyFaults.of_eq_ok hns).bind fun ns' hns' => ?_
    cases hns.symm.trans hns'
    have values : OnlyFaults (s.Unbacked p.models) (ns.mapM p.objectType) := OnlyFaults.mapM fun n hn => by
      obtain ⟨b, ⟨-, hb⟩, rfl⟩ := (possible n).1 hn
      rcases hb with ⟨i, -, hb⟩ | ⟨u, -, -, hb⟩
      · exact objectType_faults hr (t.mem_of_expands hb)
      · exact objectType_faults hr (t.mem_of_expands hb)
    split
    · exact .ok _
    · exact values.bind fun _ _ => .ok _
  | interface i =>
    obtain ⟨os, hos⟩ := t.exists_implementors (Schema.defines_interface.2 ⟨i, definition, rfl⟩)
    refine (OnlyFaults.of_eq_ok hos).bind fun os' hos' => ?_
    exact (objectTypes_faults hr fun o ho => t.mem_of_implementors hos' ho).bind fun _ _ => .ok _
  | union u =>
    obtain ⟨os, hos⟩ := t.exists_members (Schema.defines_union.2 ⟨u, definition, rfl⟩)
    refine (OnlyFaults.of_eq_ok hos).bind fun os' hos' => ?_
    exact (objectTypes_faults hr fun o ho => t.mem_of_members hos' ho).bind fun _ _ => .ok _

/-- The declarations of an entity can be rendered unless an object is not backed. -/
theorem content_faults (context : TypeExpr) (switches : Switches) :
    OnlyFaults (s.Unbacked p.models) (EntityDeclarations.content p context switches e) := by
  obtain ⟨is, his, -, known, -⟩ := inputTypes_eq t he
  obtain ⟨enums, henums, -⟩ := enums_eq t he his
  unfold EntityDeclarations.content
  refine (OnlyFaults.of_eq_ok his).bind fun is' his' => ?_
  cases his.symm.trans his'
  refine (OnlyFaults.of_eq_ok henums).bind fun _ _ => ?_
  refine (OnlyFaults.mapM fun i hi => ?_).bind fun _ _ => ?_
  · have fields : ∀ b ∈ i.fields, b.type ∈ s.references := fun b hb =>
      Schema.references_of_input (mem_of_lastOf (known i hi)).1 hb
    exact ((inputMembers_faults c t hr fields).bind fun _ _ => .ok _).bind fun _ _ => .ok _
  refine (OnlyFaults.mapM fun f hf => ?_).bind fun _ _ => ?_
  · have arguments : ∀ b ∈ f.arguments, b.type ∈ s.references := fun b hb =>
      references_of_entity he (List.mem_of_mem_filter hf) (List.mem_cons_of_mem _ (List.mem_map_of_mem hb))
    exact ((inputMembers_faults c t hr arguments).bind fun _ _ => .ok _).bind fun _ _ => .ok _
  refine (entityType_faults t hr he).bind fun _ _ => ?_
  refine (OnlyFaults.mapM fun f hf => ?_).bind fun _ _ => ?_
  · have own : f.type ∈ s.references := references_of_entity he hf List.mem_cons_self
    exact ((project_faults c t hr own).bind fun _ _ => .ok _).bind fun _ _ => .ok _
  exact (typeMembers_faults c t hr he context).bind fun _ _ => .ok _

omit hr

/-- A name that is needed as that of an object is the name of one. -/
theorem exists_object_of_needed {n : String} (h : Needed p.associations.Expands s e n .object) :
    ∃ o ∈ s.objects, o.name = n := by
  have of_reference : ∀ r ∈ s.references, r.category = .object → ∃ o ∈ s.objects, o.name = r.name := fun r hr hc => by
    have defined := c.references r hr (by simp [hc])
    rw [hc] at defined
    obtain ⟨o, ho, name⟩ := Schema.defines_object.1 defined
    exact ⟨o, Schema.mem_objects.2 ho, name⟩
  generalize hc : Category.object = k at h
  cases h with
  | @own o ho =>
    subst ho
    exact ⟨o, Schema.mem_objects.2 (Schema.mem_entities.1 he), rfl⟩
  | behindOwn ho => exact ⟨_, t.mem_of_expands ho, rfl⟩
  | field hf _ => exact of_reference _ (references_of_entity he hf List.mem_cons_self) hc.symm
  | behindField _ ho => exact ⟨_, t.mem_of_expands ho, rfl⟩
  | argument hf hb =>
    exact of_reference _ (references_of_entity he hf (List.mem_cons_of_mem _ (List.mem_map_of_mem hb))) hc.symm
  | inputField _ hi hb => exact of_reference _ (Schema.references_of_input (mem_of_lastOf hi).1 hb) hc.symm
  | typeOf _ hb =>
    rcases hb.2 with ⟨_, _, hb⟩ | ⟨_, _, _, hb⟩
    · exact ⟨_, t.mem_of_expands hb, rfl⟩
    · exact ⟨_, t.mem_of_expands hb, rfl⟩

end Types

/-! ## Clashing names -/

namespace Source

variable (src : Source)

/-- The default resolvers of an entity are emitted: they are switched on, and its model carries one of its fields. -/
def emitsDefaults : Entity → Bool
  | .object o => src.switches.defaultResolvers &&
      ((src.models.objectModel? src.schema.roots o.name).any fun m => o.fields.any m.carries)
  | .interface _ | .union _ => false

/-- The names that the unit of an entity declares for its fields and itself. -/
def ownNames (e : Entity) : List String :=
  (e.fields.filter fun f => !f.arguments.isEmpty).map Field.argumentsName ++ e.fields.map Field.resolverName ++
    [aggregateName e.name] ++ if src.emitsDefaults e then [defaultsName e.name] else []

/-- Two declarations in the unit of an entity have one name. The input types among them have names of their own, so at
most one of the two is that of an input type. -/
def Clash (e : Entity) (n : String) : Prop :=
  (src.schema.Leads e n ∧ n ∈ src.ownNames e) ∨ 2 ≤ (src.ownNames e).count n

variable {src}

theorem defaults_names (a : Associations) (e : Entity) :
    ((src.projection a).entityDefaults? src.switches e).toList.map Constant.name =
      if src.emitsDefaults e then [defaultsName e.name] else [] := by
  cases e with
  | object o =>
    unfold Projection.entityDefaults? emitsDefaults
    cases hm : src.models.objectModel? src.schema.roots o.name with
    | none => simp [projection, hm]
    | some m =>
      cases hs : src.switches.defaultResolvers with
      | false => simp [projection, hm]
      | true =>
        unfold defaultResolvers?
        cases hf : o.fields.filter m.carries with
        | nil =>
          have none : o.fields.any m.carries = false := by
            rw [List.any_eq_false]
            exact List.filter_eq_nil_iff.1 hf
          simp [projection, hm, hf, none]
        | cons f fs =>
          have some : o.fields.any m.carries = true := by
            have hf : f ∈ o.fields.filter m.carries := hf ▸ List.mem_cons_self
            exact List.any_eq_true.2 ⟨f, List.mem_of_mem_filter hf, (List.mem_filter.1 hf).2⟩
          simp [projection, hm, hf, some, Entity.name]
  | interface i => simp [Projection.entityDefaults?, emitsDefaults]
  | union u => simp [Projection.entityDefaults?, emitsDefaults]

theorem ownNames_eq (a : Associations) (e : Entity) :
    (src.projection a).ownNames src.switches e = src.ownNames e := by
  unfold Projection.ownNames ownNames
  rw [defaults_names, List.append_assoc, List.append_assoc]
  rfl

variable {a : Associations} (t : Tables src.schema a) {e : Entity} (he : e ∈ src.schema.entities)
  {is : List InputType} (his : (src.projection a).inputTypes e = .ok is)

include t he his

/-- The declared names of an entity are distinct if and only if there is no clash. -/
theorem nodup_declaredNames_iff :
    ((src.projection a).declaredNames src.switches e is).Nodup ↔ ∀ n, ¬src.Clash e n := by
  obtain ⟨is', his', nodup, -, mem⟩ := inputTypes_eq (p := src.projection a) t he
  cases his.symm.trans his'
  rw [Projection.declaredNames, ownNames_eq, List.nodup_append]
  constructor
  · rintro ⟨-, own, disjoint⟩ n (⟨hl, hn⟩ | hn)
    · exact disjoint n ((mem n).2 hl) n hn rfl
    · have once : (src.ownNames e).count n ≤ 1 := List.nodup_iff_count_le_one.1 own n
      omega
  · intro h
    refine ⟨nodup, List.nodup_iff_count_le_one.2 fun n => ?_, fun n hn m hm e => ?_⟩
    · by_contra twice
      exact h n (.inr (by omega))
    · exact h n (.inl ⟨(mem n).1 hn, e ▸ hm⟩)

/-- The first name that repeats is that of a clash. -/
theorem clash_of_firstRepeat {n : String}
    (h : FirstRepeat [] ((src.projection a).declaredNames src.switches e is) n) : src.Clash e n := by
  obtain ⟨is', his', nodup, -, mem⟩ := inputTypes_eq (p := src.projection a) t he
  cases his.symm.trans his'
  have twice := h.duplicate
  rw [Projection.declaredNames, ownNames_eq, List.count_append] at twice
  have once : (is.map InputType.name).count n ≤ 1 := List.nodup_iff_count_le_one.1 nodup n
  by_cases hi : n ∈ is.map InputType.name
  · exact .inl ⟨(mem n).1 hi, List.count_pos_iff.1 (by omega)⟩
  · rw [List.count_eq_zero_of_not_mem hi] at twice
    exact .inr (by omega)

end Source

/-! ## Faults of units -/

section Units

variable {src : Source} {a : Associations} (c : src.schema.Consistent) (t : Tables src.schema a) {e : Entity}
  (he : e ∈ src.schema.entities)

include c t he

theorem importGroups_faults : OnlyFaults (src.schema.Unbacked src.models) (src.importGroups a e) := by
  obtain ⟨ns, hns, mem⟩ := neededModels_eq c (p := src.projection a) t he
  have models : ∀ x ∈ (OrderedMap.ofFirst ns).entries,
      OnlyFaults (src.schema.Unbacked src.models) (modelFor src.models src.schema.roots x.1 x.2) := by
    rintro ⟨n, k⟩ hx
    have needed := (mem n k).1 (OrderedMap.mem_of_mem_ofFirst hx)
    refine modelFor_faults fun hk => ?_
    subst hk
    exact exists_object_of_needed c (p := src.projection a) t he needed
  have groups : OnlyFaults (src.schema.Unbacked src.models)
      (groupByModule src.models src.schema.roots (.ofFirst ns)) :=
    (OnlyFaults.mapM models).bind fun _ _ => .ok _
  unfold Source.importGroups
  refine (OnlyFaults.of_eq_ok hns).bind fun ns' hns' => ?_
  cases hns.symm.trans hns'
  exact groups.bind fun _ _ => .ok _

/-- The unit of an entity fails only for an object without model or for a clash. -/
theorem entityUnit_faults : OnlyFaults
    (fun f => src.schema.Unbacked src.models f ∨ ∃ n, src.Clash e n ∧ f = .duplicateDeclaration e.name n)
    (src.entityUnit a e) := by
  unfold Source.entityUnit
  refine OnlyFaults.bind (fun f hf => ?_) fun built _ => ?_
  · rcases EntityDeclarations.build_eq_error hf with h | ⟨is, n, his, hn, rfl⟩
    · exact .inl (content_faults c (p := src.projection a) t rfl he src.contextType src.switches f h)
    · exact .inr ⟨n, Source.clash_of_firstRepeat t he his hn, rfl⟩
  · exact OnlyFaults.bind (fun f hf => .inl (importGroups_faults c t he f hf)) fun _ _ => .ok _

omit c in
/-- A unit has no clash, and the object that it is about is backed. -/
theorem of_entityUnit_eq_ok {u : EntityUnit} (h : src.entityUnit a e = .ok u) :
    (∀ n, ¬src.Clash e n) ∧ ∀ o, e = .object o → src.models.Backs src.schema.roots o.name := by
  obtain ⟨built, hb, -⟩ := bind_eq_ok.1 h
  obtain ⟨⟨is, his, nodup⟩, content⟩ := EntityDeclarations.build_eq_ok.1 hb
  refine ⟨(Source.nodup_declaredNames_iff t he his).1 nodup, fun o ho => ?_⟩
  obtain ⟨x, -⟩ := EntityDeclarations.content_eq_ok content
  subst ho
  exact (objectType_eq_ok x.parent_eq).1

end Units

/-! ## The outcome -/

/-- The generated units of a source: one for each entity in order, with a property, and those of the enums and the root
behind them. -/
def Source.EachUnit (src : Source) (format : Formatter) (us : List OutputUnit) (P : Entity → EntityUnit → Prop) :
    Prop :=
  ∃ a units, Associations.build src.schema = .ok a ∧
    List.Forall₂ (fun e u => src.entityUnit a e = .ok u ∧ P e u) src.schema.entities units ∧
    us = (units.map EntityUnit.output ++ enumsOutput src.schema.enums ++
      [(RootUnit.build src.schema src.switches).output]).map (OutputUnit.formatted format)

theorem eachUnit_of_generate {src : Source} {format : Formatter} {us : List OutputUnit}
    (h : src.generate format = .ok us) {P : Entity → EntityUnit → Prop}
    (each : ∀ a, Associations.build src.schema = .ok a → ∀ e ∈ src.schema.entities, ∀ u, src.entityUnit a e = .ok u →
      P e u) : src.EachUnit format us P := by
  rw [src.generate_eq] at h
  obtain ⟨units, hu, h⟩ := bind_eq_ok.1 h
  cases h
  obtain ⟨a, ha, hu⟩ := bind_eq_ok.1 hu
  obtain ⟨entities, loop, hu⟩ := bind_eq_ok.1 hu
  cases hu
  refine ⟨a, entities, ha, ?_, rfl⟩
  have steps := mapM_eq_ok.1 loop
  refine List.forall₂_iff_get.2 ⟨steps.length_eq, fun i hi hj => ?_⟩
  have step := steps.get hi hj
  exact ⟨step, each a ha _ (List.get_mem _ _) _ step⟩

/-- Every entity has its unit among the generated ones. -/
theorem Source.EachUnit.exists_unit {src : Source} {format : Formatter} {us : List OutputUnit}
    {P : Entity → EntityUnit → Prop} (h : src.EachUnit format us P) {e : Entity} (he : e ∈ src.schema.entities) :
    ∃ a u, Associations.build src.schema = .ok a ∧ src.entityUnit a e = .ok u ∧ P e u := by
  obtain ⟨a, units, ha, steps, -⟩ := h
  obtain ⟨i, hi, rfl⟩ := List.getElem_of_mem he
  have hj : i < units.length := by rw [← steps.length_eq]; exact hi
  exact ⟨a, units[i], ha, steps.get hi hj⟩

theorem Source.EachUnit.imp {src : Source} {format : Formatter} {us : List OutputUnit}
    {P Q : Entity → EntityUnit → Prop} (h : src.EachUnit format us P)
    (each : ∀ a e u, Associations.build src.schema = .ok a → e ∈ src.schema.entities → src.entityUnit a e = .ok u →
      P e u → Q e u) : src.EachUnit format us Q := by
  obtain ⟨a, units, ha, steps, content⟩ := h
  refine ⟨a, units, ha, List.forall₂_iff_get.2 ⟨steps.length_eq, fun i hi hj => ?_⟩, content⟩
  obtain ⟨step, holds⟩ := steps.get hi hj
  exact ⟨step, each a _ _ ha (List.get_mem _ _) step holds⟩

/-- The generated units are those of the entities, of the enums and of the root. -/
theorem Source.EachUnit.mem {src : Source} {format : Formatter} {us : List OutputUnit}
    {P : Entity → EntityUnit → Prop} (h : src.EachUnit format us P) :
    src.EachUnit format us (fun e u => P e u ∧ u.output.formatted format ∈ us) ∧
      (enumsOutput src.schema.enums).map (OutputUnit.formatted format) ⊆ us ∧
      (RootUnit.build src.schema src.switches).output.formatted format ∈ us := by
  obtain ⟨a, units, ha, steps, rfl⟩ := h
  refine ⟨⟨a, units, ha, List.forall₂_iff_get.2 ⟨steps.length_eq, fun i hi hj => ?_⟩, rfl⟩, ?_, ?_⟩
  · obtain ⟨step, holds⟩ := steps.get hi hj
    refine ⟨step, holds, List.mem_map_of_mem ?_⟩
    exact List.mem_append_left _ (List.mem_append_left _ (List.mem_map_of_mem (List.get_mem _ _)))
  · exact List.map_subset _ (List.Subset.trans (List.subset_append_right _ _) (List.subset_append_left _ _))
  · exact List.mem_map_of_mem (List.mem_append_right _ (List.mem_singleton_self _))

/-- Generation from a consistent schema fails only for an object without model or for a clash. -/
theorem generate_faults {src : Source} (c : src.schema.Consistent) (format : Formatter) :
    OnlyFaults (fun f => src.schema.Unbacked src.models f ∨
      ∃ e ∈ src.schema.entities, ∃ n, src.Clash e n ∧ f = .duplicateDeclaration e.name n) (src.generate format) := by
  obtain ⟨a, ha⟩ := exists_build c
  rw [src.generate_eq]
  unfold Source.units
  refine OnlyFaults.bind ?_ fun _ _ => .ok _
  refine (OnlyFaults.of_eq_ok ha).bind fun a' ha' => ?_
  refine OnlyFaults.bind (OnlyFaults.mapM fun e he f hf => ?_) fun _ _ => .ok _
  rcases entityUnit_faults c (tables_of_build ha') he f hf with h | ⟨n, hn⟩
  · exact .inl h
  · exact .inr ⟨e, he, n, hn⟩

/-- It is enough that all objects are backed and that no entity has a name of its own twice or in common with an input
type. -/
theorem exists_generate {src : Source} (c : src.schema.Consistent) (format : Formatter)
    (backed : ∀ o ∈ src.schema.objects, src.models.Backs src.schema.roots o.name)
    (distinct : ∀ e ∈ src.schema.entities, (src.ownNames e).Nodup ∧ ∀ i ∈ src.schema.inputs, i.name ∉ src.ownNames e) :
    ∃ us, src.generate format = .ok us := by
  obtain ⟨a, ha⟩ := exists_build c
  refine (generate_faults c format).exists_ok ?_
  rintro f (⟨o, ho, unbacked, -⟩ | ⟨e, he, n, ⟨hl, hn⟩ | twice, -⟩)
  · exact unbacked (backed o ho)
  · obtain ⟨is, -, -, known, mem⟩ := inputTypes_eq (p := src.projection a) (tables_of_build ha) he
    obtain ⟨i, hi, rfl⟩ := List.mem_map.1 ((mem n).2 hl)
    exact (distinct e he).2 i (mem_of_lastOf (known i hi)).1 hn
  · have once : (src.ownNames e).count n ≤ 1 := List.nodup_iff_count_le_one.1 (distinct e he).1 n
    omega

/-- A document with a type of each category, in which objects share an interface and a union. -/
def library : Sdl.Document := ⟨[
  .definition (.scalar "Date"),
  .definition (.enum "Genre" ["POETRY", "PROSE"]),
  .definition (.input "Filter" [⟨"genre", .named "Genre" false⟩, ⟨"not", .named "Filter" false⟩]),
  .definition (.interface "Item" [] [⟨"added", .named "Date" true, []⟩]),
  .definition (.object "Book" ["Item"] [⟨"added", .named "Date" true, []⟩, ⟨"genre", .named "Genre" false, []⟩]),
  .definition (.object "Map" ["Item"] [⟨"added", .named "Date" true, []⟩]),
  .definition (.union "Find" ["Book", "Map"]),
  .definition (.object "Query" []
    [⟨"items", .list (.named "Item" true) true, [⟨"filter", .named "Filter" false⟩]⟩,
      ⟨"find", .named "Find" false, []⟩])]⟩

/-- The schema of `library`. -/
def librarySchema : Schema := ⟨[
  .enum ⟨"Genre", ["POETRY", "PROSE"]⟩,
  .input ⟨"Filter", [⟨"genre", ⟨"Genre", .enum, true, []⟩⟩, ⟨"not", ⟨"Filter", .input, true, []⟩⟩]⟩,
  .interface ⟨"Item", [⟨"added", ⟨"Date", .scalar, false, []⟩, []⟩], ["Book", "Map"]⟩,
  .object ⟨"Book", [⟨"added", ⟨"Date", .scalar, false, []⟩, []⟩, ⟨"genre", ⟨"Genre", .enum, true, []⟩, []⟩], ["Item"]⟩,
  .object ⟨"Map", [⟨"added", ⟨"Date", .scalar, false, []⟩, []⟩], ["Item"]⟩,
  .union ⟨"Find", ["Book", "Map"]⟩,
  .object ⟨"Query", [⟨"items", ⟨"Item", .interface, false, [.nonNull]⟩, [⟨"filter", ⟨"Filter", .input, true, []⟩⟩]⟩,
    ⟨"find", ⟨"Find", .union, true, []⟩, []⟩], []⟩],
  .standard⟩

/-- The schema of `library` with models from two modules and default resolvers. -/
def librarySource : Source := ⟨librarySchema,
  (ModelMap.empty.withDefaultModule "./models").withModel "Date" ⟨"Moment", "./time", none⟩, none, ⟨true, false⟩⟩

theorem library_accepted : library.schema = .ok librarySource.schema := by decide

theorem library_generates : ∃ us, librarySource.generate .passthrough = .ok us :=
  exists_generate (Sdl.schema_consistent library_accepted) .passthrough (by decide) (by decide +kernel)

/-- Typings are generated from an accepted document if and only if each object has a model, is a root operation type or
is left to the default module, and no unit would declare a name twice. Otherwise the fault names an object without model
or such a name, and it is never that a name is not defined or does not denote what it should. -/
theorem generate_succeeds_iff {d : Sdl.Document} {src : Source} (accepted : d.schema = .ok src.schema)
    (format : Formatter) :
    ((∃ us, src.generate format = .ok us) ↔
      (∀ o ∈ src.schema.objects, src.models.Backs src.schema.roots o.name) ∧
        ∀ e ∈ src.schema.entities, ∀ n, ¬src.Clash e n) ∧
    ∀ f, src.generate format = .error f →
      (∃ o ∈ src.schema.objects, ¬src.models.Backs src.schema.roots o.name ∧ f = .missingModel o.name) ∨
        ∃ e ∈ src.schema.entities, ∃ n, src.Clash e n ∧ f = .duplicateDeclaration e.name n := by
  have c : src.schema.Consistent := Sdl.schema_consistent accepted
  refine ⟨⟨?_, ?_⟩, generate_faults c format⟩
  · rintro ⟨us, h⟩
    have units : src.EachUnit format us fun e _ =>
        (∀ n, ¬src.Clash e n) ∧ ∀ o, e = .object o → src.models.Backs src.schema.roots o.name :=
      eachUnit_of_generate h fun a ha e he u hu => of_entityUnit_eq_ok (tables_of_build ha) he hu
    constructor
    · intro o ho
      have entity : Entity.object o ∈ src.schema.entities := Schema.mem_entities.2 (Schema.mem_objects.1 ho)
      obtain ⟨-, -, -, -, -, backed⟩ := units.exists_unit entity
      exact backed o rfl
    · intro e he
      obtain ⟨-, -, -, -, distinct, -⟩ := units.exists_unit he
      exact distinct
  · rintro ⟨backed, distinct⟩
    cases h : src.generate format with
    | ok us => exact ⟨us, rfl⟩
    | error f =>
      rcases generate_faults c format f h with ⟨o, ho, unbacked, -⟩ | ⟨e, he, n, clash, -⟩
      · exact absurd (backed o ho) unbacked
      · exact absurd clash (distinct e he n)

/-- A document with an input type that leads back to itself, and with a name that is defined twice. -/
def feed : Sdl.Document := ⟨[
  .definition (.input "Filter" [⟨"not", .named "Filter" false⟩, ⟨"tag", .named "String" false⟩]),
  .definition (.interface "Node" [] [⟨"id", .named "ID" true, []⟩]),
  .definition (.object "Post" ["Node"] [⟨"id", .named "ID" true, []⟩]),
  .definition (.object "Query" [] [⟨"title", .named "String" false, []⟩]),
  .definition (.object "Query" [] [⟨"posts", .list (.named "Post" true) true, [⟨"filter", .named "Filter" false⟩]⟩])]⟩

/-- The schema of `feed`. -/
def feedSchema : Schema := ⟨[
  .input ⟨"Filter", [⟨"not", ⟨"Filter", .input, true, []⟩⟩, ⟨"tag", ⟨"String", .scalar, true, []⟩⟩]⟩,
  .interface ⟨"Node", [⟨"id", ⟨"ID", .scalar, false, []⟩, []⟩], ["Post"]⟩,
  .object ⟨"Post", [⟨"id", ⟨"ID", .scalar, false, []⟩, []⟩], ["Node"]⟩,
  .object ⟨"Query", [⟨"title", ⟨"String", .scalar, true, []⟩, []⟩], []⟩,
  .object ⟨"Query", [⟨"posts", ⟨"Post", .object, false, [.nonNull]⟩, [⟨"filter", ⟨"Filter", .input, true, []⟩⟩]⟩], []⟩],
  .standard⟩

/-- Nothing is generated from `feed` without models: the object `Post` has none. -/
theorem generate_succeeds_iff_feed : feed.schema = .ok feedSchema ∧
    ¬∃ us, Source.generate ⟨feedSchema, .empty, none, .off⟩ .passthrough = .ok us := by
  have accepted : feed.schema = .ok feedSchema := by decide
  refine ⟨accepted, fun h => ?_⟩
  let src : Source := ⟨feedSchema, .empty, none, .off⟩
  have schema : feed.schema = .ok src.schema := accepted
  have backed := ((generate_succeeds_iff schema .passthrough).1.1 h).1
  have post := backed ⟨"Post", [⟨"id", ⟨"ID", .scalar, false, []⟩, []⟩], ["Node"]⟩ (by decide)
  exact absurd post (by decide)

end SchemaTypings

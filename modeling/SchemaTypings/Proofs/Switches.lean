import SchemaTypings.Proofs.ImportGroups
import SchemaTypings.Proofs.Outcome
import SchemaTypings.Proofs.UnitTexts

/-!
# Switches

What the two switches of a source change about its units, and that they change nothing else.

- `Source.withDefaults`, `Source.withAugmentation`: a source with one switch set. No type, import or look-up depends on
  either of them;
- `addsDefaults_of_entityUnit`, `fault_of_entityUnit`: the default resolvers of an entity stand behind its other
  declarations, and all that can go wrong about them is that their name is taken;
- `rootOutput_withAugmentation`: the augmentation stands at the end of the root unit;
- `switches_conservative`: the same for all units of a source.
-/

namespace SchemaTypings

open TypeScript

/-! ## Sources with a switch set -/

namespace Source

/-- A source with default resolvers switched on or off. -/
def withDefaults (src : Source) (on : Bool) : Source :=
  { src with switches := { src.switches with defaultResolvers := on } }

/-- A source with the augmentation of the root map switched on or off. -/
def withAugmentation (src : Source) (on : Bool) : Source :=
  { src with switches := { src.switches with resolversAugmentation := on } }

/-- All units of a source but the root unit. -/
def leadingUnits (src : Source) : Except Fault (List OutputUnit) := do
  let a ← Associations.build src.schema
  let entities ← src.schema.entities.mapM (src.entityUnit a)
  return entities.map EntityUnit.output ++ enumsOutput src.schema.enums

/-- The root unit of a source. -/
def rootOutput (src : Source) : OutputUnit := (RootUnit.build src.schema src.switches).output

end Source

/-- A unit with the augmentation of the root map behind its text. -/
def OutputUnit.augmented (u : OutputUnit) : OutputUnit :=
  { u with content := u.content ++ paragraphs [RootUnit.resolversAugmentation.text] }

/-! ## Texts that go on -/

/-- Further declarations of an entity stand at the end of its unit. -/
theorem EntityUnit.text_append (u : EntityUnit) (ds : List Declaration) :
    { u with declarations := u.declarations ++ ds }.text = u.text ++ paragraphs (ds.map Declaration.exported) := by
  unfold EntityUnit.text
  dsimp only
  rw [List.map_append, paragraphs_append, ← String.append_assoc]

/-- An augmentation stands at the end of the root unit. -/
theorem RootUnit.text_augmented (u : RootUnit) (x : Augmentation) :
    { u with augmentation := some x }.text = { u with augmentation := none }.text ++ paragraphs [x.text] := by
  unfold RootUnit.text
  dsimp only
  rw [Option.toList_some, List.map_singleton, Option.toList_none, List.map_nil, ← List.singleton_append,
    paragraphs_append, ← String.append_assoc]

/-! ## Default resolvers -/

theorem name_defaultResolvers? {o : ObjectType} {m : Model} {c : Constant} (h : defaultResolvers? o m = some c) :
    c.name = defaultsName o.name := by
  unfold defaultResolvers? at h
  split at h
  · cases h
  · cases h
    rfl

/-- Only an object with a model has default resolvers. -/
theorem entityDefaults?_eq_some {p : Projection} {switches : Switches} {e : Entity} {c : Constant}
    (h : p.entityDefaults? switches e = some c) : ∃ o m, e = .object o ∧
      p.models.objectModel? p.roots o.name = some m ∧ defaultResolvers? o m = some c := by
  cases e with
  | object o =>
    obtain ⟨m, hm, h⟩ := Option.bind_eq_some_iff.1 h
    split at h
    · exact ⟨o, m, rfl, hm, h⟩
    · cases h
  | interface i => cases h
  | union u => cases h

section Defaults

variable {p : Projection} {context : TypeExpr} {e : Entity} {augmentation : Bool}

theorem entityDefaults?_off (p : Projection) (augmentation : Bool) (e : Entity) :
    p.entityDefaults? ⟨false, augmentation⟩ e = none := by
  cases e with
  | object o => simp [Projection.entityDefaults?]
  | interface i => rfl
  | union u => rfl

/-- The name of the default resolvers is taken behind all others. -/
theorem declaredNames_defaults (p : Projection) (augmentation : Bool) (e : Entity) (is : List InputType) :
    p.declaredNames ⟨true, augmentation⟩ e is = p.declaredNames ⟨false, augmentation⟩ e is ++
      (p.entityDefaults? ⟨true, augmentation⟩ e).toList.map Constant.name := by
  unfold Projection.declaredNames Projection.ownNames
  rw [entityDefaults?_off]
  simp

/-- Declarations with constants behind them. -/
def EntityDeclarations.extended (d : EntityDeclarations) (cs : List Constant) : EntityDeclarations :=
  { d with declarations := d.declarations ++ cs.map .constant }

theorem EntityDeclarations.extended_nil (d : EntityDeclarations) : d.extended [] = d := by
  unfold extended
  rw [List.map_nil, List.append_nil]

theorem EntityParts.assemble_defaults (x : EntityParts p context e) (augmentation : Bool) :
    x.assemble ⟨true, augmentation⟩ =
      (x.assemble ⟨false, augmentation⟩).extended (p.entityDefaults? ⟨true, augmentation⟩ e).toList := by
  unfold EntityDeclarations.extended EntityParts.assemble
  rw [entityDefaults?_off]
  simp

/-- With default resolvers the declarations of an entity are those without them, and the default resolvers. -/
theorem build_defaults {built : EntityDeclarations}
    (h : EntityDeclarations.build p context ⟨true, augmentation⟩ e = .ok built) :
    ∃ plain, EntityDeclarations.build p context ⟨false, augmentation⟩ e = .ok plain ∧
      built = plain.extended (p.entityDefaults? ⟨true, augmentation⟩ e).toList := by
  obtain ⟨⟨is, his, distinct⟩, content⟩ := EntityDeclarations.build_eq_ok.1 h
  obtain ⟨x, rfl⟩ := EntityDeclarations.content_eq_ok content
  rw [declaredNames_defaults, List.nodup_append] at distinct
  exact ⟨_, EntityDeclarations.build_eq_ok.2 ⟨⟨is, his, distinct.1⟩, x.content_eq _⟩, x.assemble_defaults augmentation⟩

/-- Behind distinct names only a further one can repeat. -/
theorem FirstRepeat.mem_right {ns ms : List String} {n : String} (distinct : ns.Nodup)
    (h : FirstRepeat [] (ns ++ ms) n) : n ∈ ms := by
  by_contra new
  have twice := h.duplicate
  have once : ns.count n ≤ 1 := List.nodup_iff_count_le_one.1 distinct n
  rw [List.count_append, List.count_eq_zero_of_not_mem new] at twice
  omega

/-- If only default resolvers make an entity fail, their name has been taken. -/
theorem fault_defaults {plain : EntityDeclarations} {f : Fault}
    (h : EntityDeclarations.build p context ⟨false, augmentation⟩ e = .ok plain)
    (failed : EntityDeclarations.build p context ⟨true, augmentation⟩ e = .error f) :
    ∃ o, e = .object o ∧ f = .duplicateDeclaration o.name (defaultsName o.name) := by
  obtain ⟨⟨is, his, distinct⟩, content⟩ := EntityDeclarations.build_eq_ok.1 h
  obtain ⟨x, -⟩ := EntityDeclarations.content_eq_ok content
  -- the content has no part in the failure, since it is rendered with either switch
  rcases EntityDeclarations.build_eq_error failed with failed | ⟨is', n, his', repeated, rfl⟩
  · rw [x.content_eq] at failed
    cases failed
  · cases his.symm.trans his'
    rw [declaredNames_defaults] at repeated
    obtain ⟨c, hc, rfl⟩ := List.mem_map.1 (repeated.mem_right distinct)
    obtain ⟨o, m, rfl, -, defaults⟩ := entityDefaults?_eq_some (Option.mem_toList.1 hc)
    exact ⟨o, rfl, by rw [name_defaultResolvers? defaults]; rfl⟩

/-- The declarations of an entity do not depend on the augmentation. -/
theorem build_augmentation (p : Projection) (context : TypeExpr) (defaults augmentation augmentation' : Bool)
    (e : Entity) : EntityDeclarations.build p context ⟨defaults, augmentation⟩ e =
      EntityDeclarations.build p context ⟨defaults, augmentation'⟩ e := by
  unfold EntityDeclarations.build EntityDeclarations.draft
  have same : p.entityDefaults? ⟨defaults, augmentation⟩ e = p.entityDefaults? ⟨defaults, augmentation'⟩ e := by
    cases e <;> rfl
  simp only [same]

end Defaults

/-! ## The units of entities -/

section Units

variable {src : Source} {a : Associations} {e : Entity}

/-- The unit made of declarations and imports. -/
def Source.unitOf (src : Source) (e : Entity) (built : EntityDeclarations) (g : ImportGroups) : EntityUnit where
  entity := e.name
  imports := EntityUnit.libraryImport built.hasTypeOf ::
    g.groups.entries.map (fun (module, ns) => ⟨ns, module⟩) ++ EntityUnit.enumsImport built.enums
  declaresContext := src.context.isNone
  declarations := built.declarations

/-- Default resolvers take part in a unit through its declarations only. -/
theorem entityUnit_withDefaults (src : Source) (on : Bool) (a : Associations) (e : Entity) :
    (src.withDefaults on).entityUnit a e = (do
      let built ← EntityDeclarations.build (src.projection a) src.contextType
        ⟨on, src.switches.resolversAugmentation⟩ e
      let g ← src.importGroups a e
      return src.unitOf e built g) := rfl

/-- The augmentation takes no part in the unit of an entity. -/
theorem entityUnit_withAugmentation (src : Source) (on : Bool) (a : Associations) (e : Entity) :
    (src.withAugmentation on).entityUnit a e = src.entityUnit a e := by
  show (do
    let built ← EntityDeclarations.build (src.projection a) src.contextType ⟨src.switches.defaultResolvers, on⟩ e
    let g ← src.importGroups a e
    return src.unitOf e built g) = _
  rw [build_augmentation _ _ _ on src.switches.resolversAugmentation]
  rfl

/-- The unit of an entity with default resolvers, beside the one without them. -/
structure Source.AddsDefaults (src : Source) (e : Entity) (u v : OutputUnit) : Prop where
  path : u.path = unitPath e.name
  same : v.path = u.path ∧ v.forceOverwrite = u.forceOverwrite
  content : v.content = u.content ∨ ∃ o m c, e = .object o ∧
    src.models.objectModel? src.schema.roots o.name = some m ∧ c.name = defaultsName o.name ∧
      v.content = u.content ++ paragraphs [(Declaration.constant c).exported]

theorem addsDefaults_of_entityUnit {v : EntityUnit} (h : (src.withDefaults true).entityUnit a e = .ok v) :
    ∃ u, (src.withDefaults false).entityUnit a e = .ok u ∧ src.AddsDefaults e u.output v.output := by
  rw [entityUnit_withDefaults] at h
  obtain ⟨built, hb, h⟩ := bind_eq_ok.1 h
  obtain ⟨g, hg, h⟩ := bind_eq_ok.1 h
  cases h
  obtain ⟨plain, hp, rfl⟩ := build_defaults hb
  refine ⟨src.unitOf e plain g, ?_, rfl, ⟨rfl, rfl⟩, ?_⟩
  · rw [entityUnit_withDefaults, hp, ok_bind, hg]
    rfl
  · cases hc : (src.projection a).entityDefaults? ⟨true, src.switches.resolversAugmentation⟩ e with
    | none => exact .inl (by rw [Option.toList_none, EntityDeclarations.extended_nil])
    | some c =>
      obtain ⟨o, m, rfl, hm, defaults⟩ := entityDefaults?_eq_some hc
      refine .inr ⟨o, m, c, rfl, hm, name_defaultResolvers? defaults, ?_⟩
      exact (src.unitOf (.object o) plain g).text_append [.constant c]

theorem fault_of_entityUnit {u : EntityUnit} {f : Fault} (h : (src.withDefaults false).entityUnit a e = .ok u)
    (failed : (src.withDefaults true).entityUnit a e = .error f) :
    ∃ o, e = .object o ∧ f = .duplicateDeclaration o.name (defaultsName o.name) := by
  rw [entityUnit_withDefaults] at h failed
  obtain ⟨plain, hp, h⟩ := bind_eq_ok.1 h
  obtain ⟨g, hg, -⟩ := bind_eq_ok.1 h
  rcases bind_eq_error.1 failed with failed | ⟨built, -, failed⟩
  · exact fault_defaults hp failed
  · rw [hg] at failed
    cases failed

end Units

/-! ## All units -/

namespace Source

variable (src : Source)

/-- The units without and with default resolvers: those of entities side by side, the others the same. -/
def DefaultsAdded (us vs : List OutputUnit) : Prop :=
  ∃ (rows : List (Entity × OutputUnit × OutputUnit)) (rest : List OutputUnit),
    rows.map (·.1) = src.schema.entities ∧ us = rows.map (·.2.1) ++ rest ∧ vs = rows.map (·.2.2) ++ rest ∧
      ∀ r ∈ rows, src.AddsDefaults r.1 r.2.1 r.2.2

variable {src}

/-- Only the units of entities depend on default resolvers. -/
theorem units_withDefaults (src : Source) (on : Bool) : (src.withDefaults on).units = (do
    let a ← Associations.build src.schema
    let units ← src.schema.entities.mapM ((src.withDefaults on).entityUnit a)
    return units.map EntityUnit.output ++ (enumsOutput src.schema.enums ++ [src.rootOutput])) := by
  simp only [← List.append_assoc]
  rfl

/-- With default resolvers there are the units that there are without them. -/
theorem defaultsAdded_of_units {vs : List OutputUnit} (h : (src.withDefaults true).units = .ok vs) :
    ∃ us, (src.withDefaults false).units = .ok us ∧ src.DefaultsAdded us vs := by
  rw [units_withDefaults] at h ⊢
  obtain ⟨a, ha, h⟩ := bind_eq_ok.1 h
  obtain ⟨units, hu, h⟩ := bind_eq_ok.1 h
  cases h
  obtain ⟨rows, entities, plain, rfl, related⟩ :=
    exists_mapM_of_mapM hu fun e _ v hv => addsDefaults_of_entityUnit hv
  refine ⟨_, bind_eq_ok.2 ⟨a, ha, bind_eq_ok.2 ⟨_, plain, rfl⟩⟩, rows.map fun r => (r.1, r.2.1.output, r.2.2.output),
    enumsOutput src.schema.enums ++ [src.rootOutput], ?_, ?_, ?_, ?_⟩
  · rw [← entities, List.map_map]
    rfl
  · rw [List.map_map, List.map_map]
    rfl
  · rw [List.map_map, List.map_map]
    rfl
  · intro r hr
    obtain ⟨row, entry, rfl⟩ := List.mem_map.1 hr
    exact related row entry

/-- If there are no units for default resolvers only, the name of those of an object has been taken. -/
theorem fault_of_units {us : List OutputUnit} {f : Fault} (h : (src.withDefaults false).units = .ok us)
    (failed : (src.withDefaults true).units = .error f) :
    ∃ o ∈ src.schema.objects, f = .duplicateDeclaration o.name (defaultsName o.name) := by
  rw [units_withDefaults] at h failed
  obtain ⟨a, ha, h⟩ := bind_eq_ok.1 h
  obtain ⟨units, hu, -⟩ := bind_eq_ok.1 h
  rw [ha, ok_bind] at failed
  rcases bind_eq_error.1 failed with loop | ⟨_, _, failed⟩
  · obtain ⟨e, he, failed⟩ := mapM_eq_error loop
    obtain ⟨u, -, unit⟩ := exists_mem_of_mapM hu he
    obtain ⟨o, rfl, rfl⟩ := fault_of_entityUnit unit failed
    exact ⟨o, Schema.mem_objects.2 (Schema.mem_entities.1 he), rfl⟩
  · cases failed

/-- Only the root unit depends on the augmentation. -/
theorem units_withAugmentation (src : Source) (on : Bool) :
    (src.withAugmentation on).units = do return (← src.leadingUnits) ++ [(src.withAugmentation on).rootOutput] := by
  have same : ∀ a, (src.withAugmentation on).entityUnit a = src.entityUnit a := fun a =>
    funext (entityUnit_withAugmentation src on a)
  unfold units leadingUnits
  simp only [same, bind_assoc, pure_bind]
  rfl

/-- The root unit, with the augmentation behind it. -/
theorem rootOutput_withAugmentation (src : Source) :
    (src.withAugmentation true).rootOutput = (src.withAugmentation false).rootOutput.augmented :=
  congrArg (OutputUnit.mk (unitPath rootUnit) false)
    (RootUnit.text_augmented (RootUnit.build src.schema ⟨src.switches.defaultResolvers, false⟩)
      RootUnit.resolversAugmentation)

end Source

/-- Neither switch changes more than it should. The augmentation of the root map decides neither whether generation
fails nor how, and changes only the root unit, which it is appended to. With default resolvers generation succeeds only
where it does without them, and the units are the same but for one constant at the end of the unit of an object with a
model. Where it fails only with them, it is for the name of such a constant. -/
theorem switches_conservative (src : Source) :
    ((∀ f, (src.withAugmentation true).generate .passthrough = .error f ↔
        (src.withAugmentation false).generate .passthrough = .error f) ∧
      ∀ us, (src.withAugmentation false).generate .passthrough = .ok us →
        ∃ front root, us = front ++ [root] ∧ root.path = unitPath rootUnit ∧
          (src.withAugmentation true).generate .passthrough = .ok (front ++ [root.augmented])) ∧
    (∀ vs, (src.withDefaults true).generate .passthrough = .ok vs →
      ∃ us, (src.withDefaults false).generate .passthrough = .ok us ∧ src.DefaultsAdded us vs) ∧
    ∀ us f, (src.withDefaults false).generate .passthrough = .ok us →
      (src.withDefaults true).generate .passthrough = .error f →
        ∃ o ∈ src.schema.objects, f = .duplicateDeclaration o.name (defaultsName o.name) := by
  simp only [Source.generate_passthrough]
  refine ⟨?_, fun vs => Source.defaultsAdded_of_units, fun us f => Source.fault_of_units⟩
  rw [Source.units_withAugmentation, Source.units_withAugmentation]
  cases src.leadingUnits with
  | error f => exact ⟨fun f' => Iff.rfl, fun us h => by cases h⟩
  | ok front =>
    refine ⟨fun f' => ⟨nofun, nofun⟩, fun us h => ?_⟩
    cases h
    refine ⟨front, (src.withAugmentation false).rootOutput, rfl, rfl, ?_⟩
    rw [← Source.rootOutput_withAugmentation]
    rfl

/-- A document with an input type under the name of the default resolvers of an object. -/
def taken : Sdl.Document := ⟨[
  .definition (.input "PostDefaultResolvers" [⟨"first", .named "Int" false⟩]),
  .definition (.object "Post" []
    [⟨"id", .named "ID" true, [⟨"of", .named "PostDefaultResolvers" false⟩]⟩])]⟩

/-- The object of `taken`. -/
def takenPost : ObjectType := ⟨"Post",
  [⟨"id", ⟨"ID", .scalar, false, []⟩, [⟨"of", ⟨"PostDefaultResolvers", .input, true, []⟩⟩]⟩], []⟩

/-- The schema of `taken` with a model for the object. -/
def takenSource : Source := ⟨⟨[
  .input ⟨"PostDefaultResolvers", [⟨"first", ⟨"Int", .scalar, true, []⟩⟩]⟩, .object takenPost], .standard⟩,
  ModelMap.empty.withDefaultModule "./models", none, .off⟩

theorem takenSource_clash : (takenSource.withDefaults true).Clash (.object takenPost) "PostDefaultResolvers" :=
  .inl ⟨.argument (a := ⟨"of", ⟨"PostDefaultResolvers", .input, true, []⟩⟩) (by decide) rfl, by decide⟩

/-- Where the name is taken, the unit of the object is refused with default resolvers only. -/
theorem switches_conservative_taken : ∃ us f, (takenSource.withDefaults false).generate .passthrough = .ok us ∧
    (takenSource.withDefaults true).generate .passthrough = .error f ∧
      f = .duplicateDeclaration "Post" "PostDefaultResolvers" := by
  have accepted : taken.schema = .ok (takenSource.withDefaults false).schema := by decide
  obtain ⟨us, plain⟩ :=
    exists_generate (Sdl.schema_consistent accepted) .passthrough (by decide) (by decide +kernel)
  have post : Entity.object takenPost ∈ (takenSource.withDefaults true).schema.entities := by decide
  cases run : (takenSource.withDefaults true).generate .passthrough with
  | ok vs =>
    have units := eachUnit_of_generate run fun a ha e he u hu => (of_entityUnit_eq_ok (tables_of_build ha) he hu).1
    obtain ⟨-, -, -, -, distinct⟩ := units.exists_unit post
    exact absurd takenSource_clash (distinct _)
  | error f =>
    obtain ⟨o, ho, rfl⟩ := (switches_conservative takenSource).2.2 us f plain run
    obtain rfl : o = takenPost := List.mem_singleton.1 ho
    exact ⟨us, _, plain, rfl, rfl⟩

end SchemaTypings

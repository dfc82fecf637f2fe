import Mathlib
import SchemaTypings.Proofs.Clashes
import SchemaTypings.Proofs.Declarations
import SchemaTypings.Proofs.Dependence
import SchemaTypings.Proofs.Signatures

/-!
# Generated units are legible

What is made from the names of a schema and from words of its own is printed in such a way that it can be read back.

- `Source.WellNamed`: the names in the schema are names of the schema language, models and the context type have words
  for names, and modules hold no quotes;
- `legible_project`, `legible_declarations`, `legible_imports`: types, declarations and imports that are made from them;
- `units_legible`, `legible_root`, `legible_enums`: all units of such a source are legible;
- `files_determine_units`: two such sources with the same files have the same units.
-/

namespace SchemaTypings

open TypeScript

/-! ## Words -/

theorem TypeScript.isWordChar_iff {c : Char} : isWordChar c = true ↔
    65 ≤ c.toNat ∧ c.toNat ≤ 90 ∨ 97 ≤ c.toNat ∧ c.toNat ≤ 122 ∨ 48 ≤ c.toNat ∧ c.toNat ≤ 57 ∨ c.toNat = 95 := by
  simp only [isWordChar, Char.isAlphanum, Char.isAlpha, Char.isUpper, Char.isLower, Char.isDigit, Bool.or_eq_true,
    Bool.and_eq_true, decide_eq_true_eq, beq_iff_eq, UInt32.le_iff_toNat_le, ge_iff_le, Char.toNat_val, or_assoc,
    ← Char.toNat_inj]
  rfl

/-- Names of the schema language are words. -/
theorem Sdl.IsName.isWord {n : String} (h : Sdl.IsName n) : IsWord n where
  nonempty := by
    rintro rfl
    obtain ⟨c, rest, chars, -⟩ := h
    cases chars
  chars := h.parts

theorem Sdl.IsName.isWord_capitalize {n : String} (h : Sdl.IsName n) : IsWord (Text.capitalize n) := by
  obtain ⟨c, rest, chars, capital⟩ := toList_capitalize h
  have parts := h.isWord.chars
  rw [chars, List.forall_mem_cons] at parts
  refine ⟨fun none => ?_, ?_⟩
  · rw [none] at capital
    cases capital
  · rw [capital, List.forall_mem_cons]
    refine ⟨?_, parts.2⟩
    have letter := isWordChar_iff.1 parts.1
    rw [isWordChar_iff, toNat_toUpper]
    split_ifs <;> omega

theorem Field.isWord_argumentsName {f : Field} (h : Sdl.IsName f.name) : IsWord f.argumentsName :=
  h.isWord_capitalize.append (by decide)

theorem Field.isWord_resolverName {f : Field} (h : Sdl.IsName f.name) : IsWord f.resolverName :=
  h.isWord_capitalize.append (by decide)

open TypeExpr

/-! ## Well-named sources -/

/-- The names in a schema are names of the schema language. -/
structure Schema.WellNamed (s : Schema) : Prop where
  definitions : ∀ d ∈ s.definitions, Sdl.IsName d.name
  fields : ∀ e ∈ s.entities, ∀ f ∈ e.fields, Sdl.IsName f.name
  arguments : ∀ b ∈ s.arguments, Sdl.IsName b.name
  references : ∀ r ∈ s.references, Sdl.IsName r.name
  values : ∀ e ∈ s.enums, ∀ v ∈ e.values, Sdl.IsName v

/-- A model can be imported under its name. -/
structure Model.WellNamed (m : Model) : Prop where
  typeName : IsWord m.typeName
  module : '\'' ∉ m.module.toList

/-- The names that a source brings into its units are words, and its modules hold no quotes. -/
structure Source.WellNamed (src : Source) : Prop where
  schema : src.schema.WellNamed
  models : ∀ n m, src.models.lookup n = .external m → m.WellNamed
  defaultModule : ∀ module, src.models.defaultModule = some module → '\'' ∉ module.toList
  contextName : ∀ c, src.context = some c → IsWord c.typeName
  contextModule : ∀ c, src.context = some c → '\'' ∉ c.module.toList

namespace Schema.WellNamed

variable {s : Schema} (w : s.WellNamed)

include w

theorem object {o : ObjectType} (ho : o ∈ s.objects) : Sdl.IsName o.name := w.definitions _ (Schema.mem_objects.1 ho)

theorem input {i : InputType} (hi : i ∈ s.inputs) : Sdl.IsName i.name := w.definitions _ (Schema.mem_inputs.1 hi)

theorem entity {e : Entity} (he : e ∈ s.entities) : Sdl.IsName e.name := by
  have name := w.definitions _ (Schema.mem_entities.1 he)
  cases e <;> exact name

end Schema.WellNamed

section Types

variable {src : Source} (w : src.WellNamed) {a : Associations} (t : Tables src.schema a)

include w

/-- The model of a name is well-named. One from the default module has the name itself. -/
theorem Source.WellNamed.model {k : Category} {n : String} (hn : Sdl.IsName n) {m : Model}
    (h : src.models.model? src.schema.roots k n = some m) : m.WellNamed := by
  unfold ModelMap.model? ModelMap.objectModel? at h
  cases found : src.models.lookup n with
  | external x =>
    have same : x = m := by cases k <;> simp_all
    exact same ▸ w.models n x found
  | enumBacked => cases k <;> simp_all
  | unmapped =>
    cases k with
    | object =>
      simp only [found] at h
      split at h
      · cases h
      · obtain ⟨module, hm, rfl⟩ := Option.map_eq_some_iff.1 h
        exact ⟨hn.isWord, w.defaultModule module hm⟩
    | _ => simp_all

theorem legible_contextType : src.contextType.Legible := by
  unfold Source.contextType
  split
  · rename_i c hc
    exact .ident (w.contextName c hc)
  · exact .ident (by decide)

/-! ## Types of a source -/

theorem legible_objectType {n : String} (hn : Sdl.IsName n) {x : TypeExpr}
    (h : (src.projection a).objectType n = .ok x) : x.Legible := by
  unfold Projection.objectType at h
  split at h
  · rename_i m hm
    cases h
    exact .ident (w.model (k := .object) hn hm).typeName
  · split at h
    · cases h
      exact .ident (by decide)
    · cases h

theorem legible_scalarType (n : String) : ((src.projection a).scalarType n).Legible := by
  unfold Projection.scalarType
  split
  case h_6 =>
    split
    · rename_i m hm
      exact .ident (w.models n m hm).typeName
    all_goals exact .ident (by decide)
  all_goals exact .ident (by decide)

theorem legible_objectTypes {os : List ObjectType} (objects : ∀ o ∈ os, o ∈ src.schema.objects) {x : TypeExpr}
    (h : (src.projection a).objectTypes os = .ok x) : x.Legible := by
  obtain ⟨ts, hts, h⟩ := bind_eq_ok.1 h
  cases h
  refine .union fun y hy => ?_
  obtain ⟨o, ho, hy⟩ := exists_of_mem_mapM hts hy
  exact legible_objectType w (w.schema.object (objects o ho)) hy

include t

theorem legible_namedType {n : String} (hn : Sdl.IsName n) {k : Category} {x : TypeExpr}
    (h : (src.projection a).namedType n k = .ok x) : x.Legible := by
  cases k with
  | scalar =>
    cases h
    exact legible_scalarType w n
  | object => exact legible_objectType w hn h
  | interface =>
    obtain ⟨os, hos, h⟩ := bind_eq_ok.1 h
    exact legible_objectTypes w (fun _ => t.mem_of_implementors hos) h
  | union =>
    obtain ⟨os, hos, h⟩ := bind_eq_ok.1 h
    exact legible_objectTypes w (fun _ => t.mem_of_members hos) h
  | _ =>
    cases h
    exact .ident hn.isWord

theorem legible_project {r : TypeRef} (hr : r ∈ src.schema.references) {x : TypeExpr}
    (h : (src.projection a).project r = .ok x) : x.Legible := by
  obtain ⟨named, hn, h⟩ := bind_eq_ok.1 h
  cases h
  exact Projection.modified_induction (fun _ h => h.or (.ident (by decide))) (fun _ h => .generic (by decide) h)
    (legible_namedType w t (w.schema.references r hr) hn) r

theorem legible_entityType {e : Entity} (he : e ∈ src.schema.entities) {x : TypeExpr}
    (h : (src.projection a).entityType e = .ok x) : x.Legible := by
  rw [Projection.entityType_eq] at h
  exact legible_namedType w t (w.schema.entity he) h

theorem legible_inputMembers {as : List Argument} (arguments : ∀ b ∈ as, b ∈ src.schema.arguments)
    {ms : List (Member TypeExpr)} (h : (src.projection a).inputMembers as = .ok ms) : ∀ m ∈ ms, LegibleMember m := by
  intro m hm
  obtain ⟨b, hb, hm⟩ := exists_of_mem_mapM h hm
  obtain ⟨x, hx, hm⟩ := bind_eq_ok.1 hm
  cases hm
  have argument := arguments b hb
  exact ⟨(w.schema.arguments b argument).isWord, legible_project w t (Schema.references_of_arguments argument) hx⟩

/-! ## Declarations of a source -/

omit w t in
theorem legible_maybePromise {x : TypeExpr} (h : x.Legible) : (maybePromise x).Legible :=
  h.or (.generic (by decide) h)

omit w t in
theorem legible_function {f : Field} (hf : Sdl.IsName f.name) {parent context result : TypeExpr}
    (hp : parent.Legible) (hc : context.Legible) (hr : result.Legible) :
    (ResolverParams.function ⟨parent, context⟩ f result).Legible := by
  have args : (ResolverParams.argumentsType f).Legible := by
    unfold ResolverParams.argumentsType
    split
    · exact .object nofun
    · exact .ident (f.isWord_argumentsName hf)
  refine .function ?_ hr
  simp only [List.forall_mem_cons]
  exact ⟨hp.member (by decide), args.member (by decide), hc.member (by decide),
    (Legible.ident (by decide)).member (by decide), nofun⟩

variable {e : Entity} (he : e ∈ src.schema.entities)

include he

theorem legible_resolverAlias {parent : TypeExpr} (hp : parent.Legible) {f : Field} (hf : f ∈ e.fields) {x : TypeAlias}
    (h : (src.projection a).resolverAlias ⟨parent, src.contextType⟩ e f = .ok x) : x.Legible := by
  obtain ⟨value, hv, h⟩ := bind_eq_ok.1 h
  cases h
  have name : Sdl.IsName f.name := w.schema.fields e he f hf
  have legible : value.Legible := legible_project w t (references_of_entity he hf List.mem_cons_self) hv
  have function : ∀ {r : TypeExpr}, r.Legible → (ResolverParams.function ⟨parent, src.contextType⟩ f r).Legible :=
    legible_function name hp (legible_contextType w)
  have resolve := function (legible_maybePromise legible)
  refine ⟨.ident (f.isWord_resolverName name), ?_⟩
  split
  · have subscribe := function (legible_maybePromise (.generic (n := "AsyncIterator") (by decide) legible))
    refine .object ?_
    simp only [List.forall_mem_cons]
    exact ⟨subscribe.member (by decide), resolve.member (by decide), nofun⟩
  · refine resolve.or (.object ?_)
    simp only [List.forall_mem_cons]
    exact ⟨(Legible.ident (by decide)).member (by decide), resolve.member (by decide), nofun⟩

omit t he in
theorem legible_resolveTypeFunction {os : List ObjectType} (objects : ∀ o ∈ os, o ∈ src.schema.objects)
    {values : TypeExpr} (hv : (src.projection a).objectTypes os = .ok values) :
    (resolveTypeFunction src.contextType values os).Legible := by
  have names : (TypeExpr.union (os.map fun o => .literal o.name)).Legible := by
    refine .union fun y hy => ?_
    obtain ⟨o, ho, rfl⟩ := List.mem_map.1 hy
    exact .literal (w.schema.object (objects o ho)).isWord
  refine .function ?_ (legible_maybePromise names)
  simp only [List.forall_mem_cons]
  exact ⟨(legible_objectTypes w objects hv).member (by decide), (legible_contextType w).member (by decide),
    (Legible.ident (by decide)).member (by decide), nofun⟩

theorem legible_typeMembers {ms : List (Member TypeExpr)}
    (h : (src.projection a).typeMembers src.contextType e = .ok ms) : ∀ m ∈ ms, LegibleMember m := by
  cases e with
  | object o =>
    obtain ⟨ns, hns, h⟩ := bind_eq_ok.1 h
    split at h
    · cases h
      exact nofun
    · obtain ⟨values, hv, h⟩ := bind_eq_ok.1 h
      cases h
      have possible : (TypeExpr.union values).Legible := by
        refine .union fun y hy => ?_
        obtain ⟨n, hn, hy⟩ := exists_of_mem_mapM hv hy
        obtain ⟨b, hb, rfl⟩ := mem_of_possibleTypes t hns hn
        exact legible_objectType w (w.schema.object hb) hy
      have check : (TypeExpr.named (.ident isTypeOf) [.union values, src.contextType]).Legible := by
        refine .named (.ident (by decide)) ?_
        simp only [List.forall_mem_cons]
        exact ⟨possible, legible_contextType w, nofun⟩
      exact List.forall_mem_singleton.2 (check.member (by decide))
  | interface i =>
    obtain ⟨os, hos, h⟩ := bind_eq_ok.1 h
    obtain ⟨values, hv, h⟩ := bind_eq_ok.1 h
    cases h
    have function := legible_resolveTypeFunction w (fun _ => t.mem_of_implementors hos) hv
    exact List.forall_mem_singleton.2 (function.member (by decide))
  | union u =>
    obtain ⟨os, hos, h⟩ := bind_eq_ok.1 h
    obtain ⟨values, hv, h⟩ := bind_eq_ok.1 h
    cases h
    have function := legible_resolveTypeFunction w (fun _ => t.mem_of_members hos) hv
    exact List.forall_mem_singleton.2 (function.member (by decide))

omit w t he in
/-- A default resolver stands on one line. -/
theorem newline_notMem_defaultResolver {m : Model} (hm : IsWord m.typeName) {f : Field} (hf : IsWord f.name) :
    '\n' ∉ (m.defaultResolver f).toList := by
  have type : '\n' ∉ m.typeName.toList := hm.notMem rfl
  have field : '\n' ∉ f.name.toList := hf.notMem rfl
  unfold Model.defaultResolver
  split <;> simp [type, field]

omit t in
theorem legible_defaults {k : Constant} (h : (src.projection a).entityDefaults? src.switches e = some k) :
    k.Legible := by
  cases e with
  | object o =>
    obtain ⟨m, hm, h⟩ := Option.bind_eq_some_iff.1 h
    have model : IsWord m.typeName := (w.model (k := .object) (w.schema.entity he) hm).typeName
    split at h
    · unfold defaultResolvers? at h
      cases carried : o.fields.filter m.carries with
      | nil => simp [carried] at h
      | cons g gs =>
        simp only [carried] at h
        cases h
        refine ⟨(w.schema.entity he).isWord.append (by decide), fun x hx => ?_⟩
        obtain ⟨f, hf, rfl⟩ := List.mem_map.1 hx
        rw [← carried] at hf
        have field : IsWord f.name := (w.schema.fields _ he f (List.mem_filter.1 hf).1).isWord
        exact ⟨field, newline_notMem_defaultResolver model field⟩
    · cases h
  | _ => cases h

/-- All declarations of an entity are legible. -/
theorem legible_declarations (x : EntityParts (src.projection a) src.contextType e) :
    ∀ d ∈ (x.assemble src.switches).declarations, d.Legible := by
  intro d hd
  rcases mem_declarations.1 hd with ⟨i, hi, rfl⟩ | ⟨i, hi, rfl⟩ | ⟨r, hr, rfl⟩ | rfl | ⟨k, hk, rfl⟩
  · obtain ⟨j, hj, hi⟩ := exists_of_mem_mapM x.inputInterfaces_eq hi
    obtain ⟨ms, hms, hi⟩ := bind_eq_ok.1 hi
    cases hi
    have input : j ∈ src.schema.inputs := mem_inputs_of_inputTypes (p := src.projection a) t he x.inputs_eq hj
    exact ⟨(w.schema.input input).isWord, nofun,
      legible_inputMembers w t (fun b => Schema.arguments_of_input input) hms⟩
  · obtain ⟨f, hf, hi⟩ := exists_of_mem_mapM x.argumentInterfaces_eq hi
    obtain ⟨ms, hms, hi⟩ := bind_eq_ok.1 hi
    cases hi
    have field : f ∈ e.fields := (List.mem_filter.1 hf).1
    exact ⟨f.isWord_argumentsName (w.schema.fields e he f field), nofun,
      legible_inputMembers w t (fun b => Schema.arguments_of_field he field) hms⟩
  · obtain ⟨f, hf, hr⟩ := exists_of_mem_mapM x.resolvers_eq hr
    exact legible_resolverAlias w t he (legible_entityType w t he x.parent_eq) hf hr
  · refine ⟨(w.schema.entity he).isWord.append (by decide), nofun, fun m hm => ?_⟩
    rcases List.mem_append.1 hm with hm | hm
    · obtain ⟨f, hf, rfl⟩ := List.mem_map.1 hm
      have name := w.schema.fields e he f hf
      exact ⟨name.isWord, .ident (f.isWord_resolverName name)⟩
    · exact legible_typeMembers w t he x.typeMembers_eq m hm
  · exact legible_defaults w he hk

/-! ## Imports of a source -/

/-- Each group is an import that can be read. -/
theorem legible_groups {g : ImportGroups} (h : src.importGroups a e = .ok g) {module : String} {ns : List String}
    (hm : (module, ns) ∈ g.groups.entries) : (⟨ns, module⟩ : Import).Legible := by
  obtain ⟨needed, hn, h⟩ := bind_eq_ok.1 h
  obtain ⟨groups, hg, h⟩ := bind_eq_ok.1 h
  have models : ∀ m n, (m, n) ∈ src.models.imports src.schema.roots needed → IsWord n ∧ '\'' ∉ m.toList := by
    intro m n hp
    obtain ⟨name, k, asked, model, found, rfl, rfl⟩ := ModelMap.mem_imports.1 hp
    have named : Sdl.IsName name := by
      cases asks_of_needed t he hn name k asked with
      | object ho => exact w.schema.object ho
      | reference hr _ => exact w.schema.references _ hr
      | argument hb => exact w.schema.references _ (Schema.references_of_arguments hb)
    have wellNamed := w.model named found
    exact ⟨wellNamed.typeName, wellNamed.module⟩
  have pushed : ∃ ps, g.Partitions ps ∧ ∀ m n, (m, n) ∈ ps → IsWord n ∧ '\'' ∉ m.toList := by
    have before := partitions_of_groupByModule hg
    cases hc : src.context with
    | none =>
      simp only [hc] at h
      cases h
      exact ⟨_, before, models⟩
    | some c =>
      simp only [hc] at h
      cases h
      refine ⟨_, before.push c.module c.typeName, fun m n hp => ?_⟩
      rcases List.mem_append.1 hp with hp | hp
      · exact models m n hp
      · cases List.mem_singleton.1 hp
        exact ⟨w.contextName c hc, w.contextModule c hc⟩
  obtain ⟨ps, partitions, words⟩ := pushed
  obtain ⟨rfl, some⟩ := partitions.mem_entries.1 hm
  -- no group is empty, so that its module was pushed with some name
  obtain ⟨n, hn⟩ := List.exists_mem_of_ne_nil _ some
  exact ⟨fun n hn => (words module n (partitions.mem_namesOf.1 hn)).1, (words module n (partitions.mem_namesOf.1 hn)).2⟩

theorem legible_imports (x : EntityParts (src.projection a) src.contextType e) {g : ImportGroups}
    (h : src.importGroups a e = .ok g) : ∀ i ∈ (x.unit g).imports, i.Legible := by
  intro i hi
  unfold EntityParts.unit at hi
  rcases List.mem_append.1 hi with hi | hi
  · rcases List.mem_cons.1 hi with rfl | hi
    · cases hasTypeOf : (x.assemble src.switches).hasTypeOf <;> exact ⟨by decide, by decide⟩
    · obtain ⟨⟨module, ns⟩, hm, rfl⟩ := List.mem_map.1 hi
      exact legible_groups w t he h hm
  · unfold EntityUnit.enumsImport at hi
    split at hi
    · cases hi
    · obtain rfl := List.mem_singleton.1 hi
      obtain ⟨ns, hns, -, refers⟩ := enums_eq (p := src.projection a) t he x.inputs_eq
      cases hns.symm.trans x.enums_eq
      have module : '\'' ∉ (unitModule enumsUnit).toList := by decide
      refine ⟨fun n hn => ?_, module⟩
      obtain ⟨r, hr, -, rfl⟩ := Schema.exists_enum_reference ((refers n).1 hn)
      exact (w.schema.references r hr).isWord

theorem legible_entityUnit {v : EntityUnit} (h : src.entityUnit a e = .ok v) : v.Legible := by
  obtain ⟨x, g, hg, rfl⟩ := entityUnit_eq_ok h
  exact ⟨legible_imports w t he x hg, legible_declarations w t he x⟩

end Types

/-! ## Units of a source -/

theorem RootUnit.legible_resolversAugmentation : RootUnit.resolversAugmentation.Legible where
  module := by decide
  interfaces := List.forall_mem_singleton.2
    { name := by decide
      parent := by
        rintro p ⟨⟩
        exact .ident (by decide)
      members := List.forall_mem_nil _ }
  lines := List.forall_mem_singleton.2 (by decide)

namespace Schema.WellNamed

variable {s : Schema} (w : s.WellNamed)

include w

theorem legible_rootMap (switches : Switches) : (RootUnit.build s switches).map.Legible where
  name := show IsWord rootMap by decide
  parent _ h := by cases h
  members m hm := by
    obtain ⟨e, he, rfl⟩ := List.mem_map.1 hm
    have name := (w.entity he).isWord
    exact (Legible.ident (name.append (by decide))).member name

theorem legible_root (switches : Switches) : (RootUnit.build s switches).Legible where
  imports i hi := by
    obtain ⟨e, he, rfl⟩ := List.mem_map.1 hi
    have name := (w.entity he).isWord
    refine ⟨List.forall_mem_singleton.2 (name.append (by decide)), ?_⟩
    simpa [RootUnit.aggregateImport, unitModule] using name.notMem rfl
  map := w.legible_rootMap switches
  augmentation a ha := by
    unfold RootUnit.build at ha
    split at ha
    · cases ha
      exact RootUnit.legible_resolversAugmentation
    · cases ha

theorem legible_enums : ∀ d ∈ s.enums.map EnumType.declaration, d.Legible := by
  intro d hd
  obtain ⟨e, he, rfl⟩ := List.mem_map.1 hd
  refine ⟨.ident (w.definitions _ (Schema.mem_enums.1 he)).isWord, .union fun y hy => ?_⟩
  obtain ⟨v, hv, rfl⟩ := List.mem_map.1 hy
  exact .literal (w.values e he v hv).isWord

end Schema.WellNamed

/-- The units of all entities of a well-named source are legible. -/
theorem units_legible {src : Source} (w : src.WellNamed) {a : Associations}
    (ha : Associations.build src.schema = .ok a) {units : List EntityUnit}
    (h : src.schema.entities.mapM (src.entityUnit a) = .ok units) : ∀ u ∈ units, u.Legible := by
  intro u hu
  obtain ⟨e, he, hv⟩ := exists_of_mem_mapM h hu
  exact legible_entityUnit w (tables_of_build ha) he hv

/-! ## Files of a source -/

/-- A function that tells some elements apart tells lists of them apart. -/
theorem eq_of_map_eq {α β : Type} {f : α → β} {P : α → Prop} (apart : ∀ {x y}, P x → P y → f x = f y → x = y) :
    ∀ {xs ys : List α}, (∀ x ∈ xs, P x) → (∀ y ∈ ys, P y) → xs.map f = ys.map f → xs = ys
  | [], [], _, _, _ => rfl
  | [], y :: ys, _, _, same => by cases same
  | x :: xs, [], _, _, same => by cases same
  | x :: xs, y :: ys, hx, hy, same => by
    obtain ⟨first, rest⟩ := List.cons.inj same
    rw [List.forall_mem_cons] at hx hy
    rw [apart hx.1 hy.1 first, eq_of_map_eq apart hx.2 hy.2 rest]

/-- The enum unit tells the declarations of the enums. -/
theorem enums_of_output {s s' : Schema} (w : s.WellNamed) (w' : s'.WellNamed)
    (same : enumsOutput s.enums = enumsOutput s'.enums) :
    s.enums.map EnumType.declaration = s'.enums.map EnumType.declaration := by
  have text : ∀ es : List EnumType, enumsText es =
      editable ++ paragraphs ((es.map EnumType.declaration).map Declaration.exported) := fun es => by
    rw [List.map_map]
    rfl
  have texts : enumsText s.enums = enumsText s'.enums → s.enums.map EnumType.declaration =
      s'.enums.map EnumType.declaration := by
    intro same
    rw [text, text, ← String.toList_inj, String.toList_append, String.toList_append, List.append_cancel_left_eq] at same
    exact (reads_paragraphs w.legible_enums _ [] [] w'.legible_enums rfl rfl (by rw [same])).1
  unfold enumsOutput at same
  split at same <;> split at same
  · rename_i none none'
    rw [List.isEmpty_iff.1 none, List.isEmpty_iff.1 none']
  · cases same
  · cases same
  · exact texts (congrArg OutputUnit.content (List.singleton_inj.1 same))

/-- Only the units of entities are always written. -/
theorem filter_forced (units : List EntityUnit) (es : List EnumType) :
    (units.map EntityUnit.output ++ enumsOutput es).filter OutputUnit.forceOverwrite = units.map EntityUnit.output := by
  have forced : (units.map EntityUnit.output).filter OutputUnit.forceOverwrite = units.map EntityUnit.output := by
    refine List.filter_eq_self.2 fun u hu => ?_
    obtain ⟨v, -, rfl⟩ := List.mem_map.1 hu
    rfl
  have free : (enumsOutput es).filter OutputUnit.forceOverwrite = [] := by
    unfold enumsOutput
    split <;> rfl
  rw [List.filter_append, forced, free, List.append_nil]

/-- The files of a well-named source determine its units: two sources with the same files agree on all declarations and
imports. -/
theorem files_determine_units {s s' : Source} (w : s.WellNamed) (w' : s'.WellNamed) {us : List OutputUnit}
    (h : s.generate .passthrough = .ok us) (h' : s'.generate .passthrough = .ok us) :
    (∃ a a' units, Associations.build s.schema = .ok a ∧ Associations.build s'.schema = .ok a' ∧
      s.schema.entities.mapM (s.entityUnit a) = .ok units ∧ s'.schema.entities.mapM (s'.entityUnit a') = .ok units) ∧
    s.schema.enums.map EnumType.declaration = s'.schema.enums.map EnumType.declaration ∧
    RootUnit.build s.schema s.switches = RootUnit.build s'.schema s'.switches := by
  rw [Source.generate_passthrough] at h h'
  obtain ⟨a, ha, h⟩ := bind_eq_ok.1 h
  obtain ⟨a', ha', h'⟩ := bind_eq_ok.1 h'
  obtain ⟨units, loop, h⟩ := bind_eq_ok.1 h
  obtain ⟨units', loop', h'⟩ := bind_eq_ok.1 h'
  cases h
  obtain ⟨others, last⟩ := List.append_inj' (Except.ok.inj h') rfl
  have outputs : units'.map EntityUnit.output = units.map EntityUnit.output := by
    rw [← filter_forced units', others, filter_forced]
  rw [outputs, List.append_cancel_left_eq] at others
  obtain rfl := eq_of_map_eq EntityUnit.eq_of_output (units_legible w' ha' loop') (units_legible w ha loop) outputs
  exact ⟨⟨a, a', units', ha, ha', loop, loop'⟩, enums_of_output w.schema w'.schema others.symm,
    RootUnit.eq_of_output (w.schema.legible_root _) (w'.schema.legible_root _) (List.singleton_inj.1 last).symm⟩

end SchemaTypings

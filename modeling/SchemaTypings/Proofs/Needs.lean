import SchemaTypings.Imports
import SchemaTypings.Proofs.Lookups
import SchemaTypings.Resolvers

/-!
# What an entity needs

The schema names that the declarations of an entity refer to, said without the tables and loops that collect them.

- `Expansion`: which objects stand behind the name of an interface or union. Tables have one (`Associations.Expands`),
  and that of an unambiguous schema is read off its definitions (`Schema.Expands`, `expands_eq`);
- `possibleTypes_eq`: the objects that the type-of check of an object accepts;
- `inputTypes_eq`: the input types declared in the unit of an entity are those that it leads to;
- `neededModels_eq`: the needed names of an entity.

All of these exist for every entity of a consistent schema.
-/

namespace SchemaTypings

/-! ## Objects behind a name -/

/-- Which objects stand behind a name of a category. -/
abbrev Expansion := Category → String → ObjectType → Prop

/-- Whether a category is that of interfaces or unions. -/
def Category.isAbstract : Category → Bool
  | .interface | .union => true
  | .scalar | .object | .enum | .input => false

/-- The objects that a table gives for the name of an interface or union. -/
def Associations.objectsBehind (a : Associations) : Category → String → Except Fault (List ObjectType)
  | .interface, name => a.implementors name
  | .union, name => a.members name
  | .scalar, _ | .object, _ | .enum, _ | .input, _ => .ok []

/-- An object stands behind a name according to a table. -/
def Associations.Expands (a : Associations) : Expansion :=
  fun c name o => ∃ os, a.objectsBehind c name = .ok os ∧ o ∈ os

/-- An object stands behind an interface that it implements and behind a union that lists it. -/
def Schema.Expands (s : Schema) : Expansion
  | .interface, name, o => o ∈ s.objects ∧ name ∈ o.implements
  | .union, name, o => o ∈ s.objects ∧ ∃ u ∈ s.unions, u.name = name ∧ o.name ∈ u.members
  | .scalar, _, _ | .object, _, _ | .enum, _, _ | .input, _, _ => False

variable {s : Schema} {a : Associations}

theorem Tables.exists_objectsBehind (t : Tables s a) {c : Category} {name : String}
    (h : c ≠ .scalar → s.Defines c name) : ∃ os, a.objectsBehind c name = .ok os := by
  cases c with
  | interface => exact t.exists_implementors (h (by simp))
  | union => exact t.exists_members (h (by simp))
  | _ => exact ⟨[], rfl⟩

theorem Tables.mem_of_objectsBehind (t : Tables s a) {c : Category} {name : String} {os : List ObjectType}
    (h : a.objectsBehind c name = .ok os) {o : ObjectType} (ho : o ∈ os) : o ∈ s.objects := by
  cases c with
  | interface => exact t.mem_of_implementors h ho
  | union => exact t.mem_of_members h ho
  | _ =>
    cases h
    cases ho

theorem Tables.mem_of_expands (t : Tables s a) {c : Category} {name : String} {o : ObjectType}
    (h : a.Expands c name o) : o ∈ s.objects := by
  obtain ⟨os, hos, ho⟩ := h
  exact t.mem_of_objectsBehind hos ho

theorem expands_iff {c : Category} {name : String} {os : List ObjectType} (h : a.objectsBehind c name = .ok os)
    {o : ObjectType} : a.Expands c name o ↔ o ∈ os := by
  constructor
  · rintro ⟨os', hos, ho⟩
    cases h.symm.trans hos
    exact ho
  · exact fun ho => ⟨os, h, ho⟩

/-- Objects stand behind interfaces and unions only. -/
theorem isAbstract_of_expands {c : Category} {name : String} {o : ObjectType} (h : a.Expands c name o) :
    c.isAbstract = true := by
  obtain ⟨os, hos, ho⟩ := h
  cases c with
  | interface => rfl
  | union => rfl
  | _ =>
    cases hos
    cases ho

/-- In an unambiguous schema the tables expand names as the schema says. -/
theorem expands_eq (c : s.Consistent) (u : s.Unambiguous) (t : Tables s a) : a.Expands = s.Expands := by
  funext k name o
  refine propext ?_
  cases k with
  | interface =>
    constructor
    · rintro ⟨os, hos, ho⟩
      obtain ⟨listed, table, joined⟩ := t.implementors
      have found := find_eq_ok.1 hos
      rw [joined] at found
      obtain ⟨base, hb, -⟩ := Option.map_eq_some_iff.1 found
      obtain ⟨i, last, -⟩ := table.sound hb
      obtain ⟨hi, rfl⟩ := mem_of_lastOf last
      cases (u.implementors_eq t hi).symm.trans hos
      exact Schema.mem_declaring.1 ho
    · rintro ⟨ho, hn⟩
      obtain ⟨i, hi, rfl⟩ := Schema.defines_interface.1 (c.implements o ho name hn)
      exact ⟨_, u.implementors_eq t (Schema.mem_interfaces.2 hi), Schema.mem_declaring.2 ⟨ho, hn⟩⟩
  | union =>
    constructor
    · rintro ⟨os, hos, ho⟩
      obtain ⟨w, last, -⟩ := t.membersByUnion.sound (find_eq_ok.1 hos)
      obtain ⟨hw, rfl⟩ := mem_of_lastOf last
      obtain ⟨os', hos', names, -⟩ := Schema.members_eq u.distinct t hw
      cases hos'.symm.trans hos
      exact ⟨t.mem_of_members hos ho, w, hw, rfl, names ▸ List.mem_map_of_mem ho⟩
    · rintro ⟨ho, w, hw, rfl, hn⟩
      obtain ⟨os, hos, names, objects⟩ := Schema.members_eq u.distinct t hw
      rw [← names] at hn
      obtain ⟨o', ho', he⟩ := List.mem_map.1 hn
      cases List.inj_on_of_nodup_map (Schema.nodup_objects u.distinct) (objects o' ho') ho he
      exact ⟨os, hos, ho'⟩
  | _ =>
    constructor
    · rintro ⟨os, hos, ho⟩
      cases hos
      cases ho
    · exact False.elim

/-! ## Possible types -/

/-- A value of an object's type-of check may belong to an object: both implement one interface or belong to one union.
An object without interfaces has no such check. -/
def Schema.Possible (s : Schema) (X : Expansion) (o b : ObjectType) : Prop :=
  o.implements ≠ [] ∧ ((∃ i ∈ o.implements, X .interface i b) ∨ ∃ u ∈ s.unions, o.name ∈ u.members ∧ X .union u.name b)

theorem possibleTypes_eq (t : Tables s a) {o : ObjectType} (ho : o ∈ s.objects)
    (known : ∀ n ∈ o.implements, s.Defines .interface n) :
    ∃ ns, possibleTypes a o.name o.implements = .ok ns ∧ ns.Nodup ∧
      ∀ n, n ∈ ns ↔ ∃ b, s.Possible a.Expands o b ∧ b.name = n := by
  unfold possibleTypes Schema.Possible
  cases himp : o.implements with
  | nil => exact ⟨[], rfl, List.nodup_nil, by simp⟩
  | cons i is =>
    rw [← himp, if_neg (by simp [himp])]
    have interfaces : ∀ n ∈ o.implements, ∃ os, a.implementors n = .ok os := fun n hn =>
      t.exists_implementors (known n hn)
    obtain ⟨us, hus, contained⟩ := t.unionsContaining_eq ho
    have unions : ∀ n ∈ us, ∃ os, a.members n = .ok os := fun n hn => by
      obtain ⟨u, hu, rfl, -⟩ := (contained n).1 hn
      exact t.exists_members (Schema.defines_union.2 ⟨u, Schema.mem_unions.1 hu, rfl⟩)
    obtain ⟨implementors, hi⟩ := mapM_isOk interfaces
    obtain ⟨members, hm⟩ := mapM_isOk unions
    refine ⟨((implementors ++ members).flatten.map ObjectType.name).eraseDups, ?_, nodup_eraseDups _, fun n => ?_⟩
    · rw [hi, ok_bind, hus, ok_bind, hm]
      rfl
    · simp only [List.mem_eraseDups, List.mem_map, List.mem_flatten, List.mem_append]
      constructor
      · rintro ⟨b, ⟨os, hos | hos, hb⟩, rfl⟩
        · obtain ⟨i, hin, hios⟩ := exists_of_mem_mapM hi hos
          exact ⟨b, ⟨by simp [himp], .inl ⟨i, hin, os, hios, hb⟩⟩, rfl⟩
        · obtain ⟨n, hn, hnos⟩ := exists_of_mem_mapM hm hos
          obtain ⟨u, hu, rfl, hou⟩ := (contained n).1 hn
          exact ⟨b, ⟨by simp [himp], .inr ⟨u, hu, hou, os, hnos, hb⟩⟩, rfl⟩
      · rintro ⟨b, ⟨-, ⟨i, hin, os, hos, hb⟩ | ⟨u, hu, hou, os, hos, hb⟩⟩, rfl⟩
        · obtain ⟨os', hos', he⟩ := exists_mem_of_mapM hi hin
          cases hos.symm.trans he
          exact ⟨b, ⟨os, .inl hos', hb⟩, rfl⟩
        · obtain ⟨os', hos', he⟩ := exists_mem_of_mapM hm ((contained u.name).2 ⟨u, hu, rfl, hou⟩)
          cases hos.symm.trans he
          exact ⟨b, ⟨os, .inr hos', hb⟩, rfl⟩

/-! ## Input types and enums -/

/-- The fields under which the input types and enums of an entity are looked up. A union has none. -/
def Schema.walkedFields (s : Schema) : Entity → List Field
  | .object o => (s.fieldsOf? o.name).getD []
  | .interface i => (s.fieldsOf? i.name).getD []
  | .union _ => []

/-- The arguments of an entity lead to an input type. -/
def Schema.Leads (s : Schema) (e : Entity) (name : String) : Prop :=
  Reaches s.input? ((s.walkedFields e).flatMap Field.arguments) name

/-- An entity is a union, or it owns fields that can be looked up. -/
theorem Schema.union_or_owner {e : Entity} (he : e ∈ s.entities) :
    (∃ u, e = .union u) ∨ ((∀ u, e ≠ .union u) ∧ (e.name, e.fields) ∈ s.fieldOwners) := by
  have definition : e.definition ∈ s.definitions := Schema.mem_entities.1 he
  cases e with
  | object o => exact .inr ⟨nofun, Schema.mem_fieldOwners.2 (.inl ⟨o, Schema.mem_objects.2 definition, rfl⟩)⟩
  | interface i => exact .inr ⟨nofun, Schema.mem_fieldOwners.2 (.inr ⟨i, Schema.mem_interfaces.2 definition, rfl⟩)⟩
  | union u => exact .inl ⟨u, rfl⟩

theorem Schema.walkedFields_of_fieldsOf? {e : Entity} (owner : ∀ u, e ≠ .union u) {fields : List Field}
    (h : s.fieldsOf? e.name = some fields) : s.walkedFields e = fields := by
  cases e with
  | union u => exact absurd rfl (owner u)
  | _ => exact congrArg (Option.getD · []) h

/-- With distinct names an entity is walked through its own fields. -/
theorem Schema.Unambiguous.walkedFields_eq (u : s.Unambiguous) {e : Entity} (he : e ∈ s.entities) :
    s.walkedFields e = e.fields := by
  rcases Schema.union_or_owner he with ⟨w, rfl⟩ | ⟨owner, hp⟩
  · rfl
  · exact Schema.walkedFields_of_fieldsOf? owner (Schema.fieldsOf?_eq u.distinct hp)

/-- Nothing leads anywhere from a union. -/
theorem not_leads_union {u : UnionType} {n : String} : ¬s.Leads (.union u) n := Reaches.not_nil

/-- Input types that are found for names have these names. -/
theorem Tables.map_name_of_inputTypes (t : Tables s a) {ns : List String} {is : List InputType}
    (h : ns.mapM a.inputType = .ok is) : is.map InputType.name = ns := by
  have same : is.map InputType.name = ns.map id :=
    map_eq_of_mapM h fun n i found => (mem_of_lastOf (t.inputType_eq_ok.1 found)).2
  rwa [List.map_id] at same

/-- The input types in the unit of an entity are those that it leads to. -/
theorem inputTypes_eq {p : Projection} (t : Tables s p.associations) {e : Entity} (he : e ∈ s.entities) :
    ∃ is, p.inputTypes e = .ok is ∧ (is.map InputType.name).Nodup ∧ (∀ i ∈ is, s.input? i.name = some i) ∧
      ∀ n, n ∈ is.map InputType.name ↔ s.Leads e n := by
  rcases Schema.union_or_owner he with ⟨u, rfl⟩ | ⟨owner, hp⟩
  · exact ⟨[], rfl, List.nodup_nil, by simp, fun n => by simp [not_leads_union]⟩
  · obtain ⟨ns, hns⟩ := t.exists_inputsOf hp
    obtain ⟨fields, hf, nodup, mem, known⟩ := t.inputsOf_eq_ok hns
    have each : ∀ n ∈ ns, ∃ i, p.associations.inputType n = .ok i := fun n hn => by
      obtain ⟨i, hi⟩ := known n hn
      exact ⟨i, t.inputType_eq_ok.2 hi⟩
    obtain ⟨is, his⟩ := mapM_isOk each
    have names : is.map InputType.name = ns := t.map_name_of_inputTypes his
    refine ⟨is, ?_, names ▸ nodup, fun i hi => ?_, fun n => ?_⟩
    · cases e with
      | union u => exact absurd rfl (owner u)
      | _ => exact bind_eq_ok.2 ⟨ns, hns, his⟩
    · obtain ⟨n, -, hn⟩ := exists_of_mem_mapM his hi
      have found := t.inputType_eq_ok.1 hn
      rwa [(mem_of_lastOf found).2]
    · rw [names, mem n, Schema.Leads, Schema.walkedFields_of_fieldsOf? owner hf]

/-- An entity refers to an enum in the types of its fields and arguments or in those of its input types. -/
def Schema.RefersToEnum (s : Schema) (e : Entity) (name : String) : Prop :=
  (∃ f ∈ s.walkedFields e, ∃ r ∈ f.references, r.category = .enum ∧ r.name = name) ∨
    ∃ n i, s.Leads e n ∧ s.input? n = some i ∧ ∃ b ∈ i.fields, b.type.category = .enum ∧ b.type.name = name

theorem mem_referencedEnums {fields : List Field} {n : String} :
    n ∈ referencedEnums fields ↔ ∃ f ∈ fields, ∃ r ∈ f.references, r.category = .enum ∧ r.name = n := by
  simp only [referencedEnums, List.mem_eraseDups, List.mem_map, List.mem_filter, List.mem_flatMap, beq_iff_eq]
  constructor
  · rintro ⟨r, ⟨⟨f, hf, hr⟩, hc⟩, rfl⟩
    exact ⟨f, hf, r, hr, hc, rfl⟩
  · rintro ⟨f, hf, r, hr, hc, rfl⟩
    exact ⟨r, ⟨⟨f, hf, hr⟩, hc⟩, rfl⟩

/-- The enums that the unit of an entity imports are those that the entity refers to. -/
theorem enums_eq {p : Projection} (t : Tables s p.associations) {e : Entity} (he : e ∈ s.entities) {is : List InputType}
    (his : p.inputTypes e = .ok is) :
    ∃ ns, p.enums is e = .ok ns ∧ ns.Nodup ∧ ∀ n, n ∈ ns ↔ s.RefersToEnum e n := by
  obtain ⟨is', his', -, known, mem⟩ := inputTypes_eq t he
  cases his.symm.trans his'
  have inputs : ∀ n, (∃ i ∈ is, ∃ b ∈ i.fields, b.type.category = .enum ∧ b.type.name = n) ↔
      ∃ m i, s.Leads e m ∧ s.input? m = some i ∧ ∃ b ∈ i.fields, b.type.category = .enum ∧ b.type.name = n := by
    intro n
    constructor
    · rintro ⟨i, hi, hb⟩
      exact ⟨i.name, i, (mem i.name).1 (List.mem_map_of_mem hi), known i hi, hb⟩
    · rintro ⟨m, i, hm, hi, hb⟩
      obtain ⟨j, hj, rfl⟩ := List.mem_map.1 ((mem m).2 hm)
      cases (known j hj).symm.trans hi
      exact ⟨_, hj, hb⟩
  rcases Schema.union_or_owner he with ⟨u, rfl⟩ | ⟨owner, hp⟩
  · refine ⟨[], rfl, List.nodup_nil, fun n => ?_⟩
    simp [Schema.RefersToEnum, Schema.walkedFields, not_leads_union]
  · obtain ⟨es, hes⟩ := t.exists_enumsOf hp
    obtain ⟨fields, hf, rfl⟩ := t.enumsOf_eq_ok hes
    refine ⟨(referencedEnums fields ++
      is.flatMap fun i => (i.fields.filter (·.type.category == .enum)).map (·.type.name)).eraseDups, ?_,
      nodup_eraseDups _, fun n => ?_⟩
    · cases e with
      | union u => exact absurd rfl (owner u)
      | _ => exact bind_eq_ok.2 ⟨_, hes, rfl⟩
    · rw [List.mem_eraseDups, List.mem_append, mem_referencedEnums, Schema.RefersToEnum,
        Schema.walkedFields_of_fieldsOf? owner hf, ← inputs n]
      refine or_congr_right ?_
      simp only [List.mem_flatMap, List.mem_map, List.mem_filter, beq_iff_eq, and_assoc]

/-! ## Needed names -/

/-- A name needs to be known in the unit of an entity, under a category. Interfaces and unions are not needed
themselves, but the objects behind them are. -/
inductive Needed (X : Expansion) (s : Schema) (e : Entity) : String → Category → Prop
  | own {o} : e = .object o → Needed X s e o.name .object
  | behindOwn {o} : X e.definition.category e.name o → Needed X s e o.name .object
  | field {f} : f ∈ e.fields → f.type.category.isAbstract = false → Needed X s e f.type.name f.type.category
  | behindField {f o} : f ∈ e.fields → X f.type.category f.type.name o → Needed X s e o.name .object
  | argument {f b} : f ∈ e.fields → b ∈ f.arguments → Needed X s e b.type.name b.type.category
  | inputField {n i b} : s.Leads e n → s.input? n = some i → b ∈ i.fields → Needed X s e b.type.name b.type.category
  | typeOf {o b} : e = .object o → s.Possible X o b → Needed X s e b.name .object

/-- A list of needed names holds the objects behind a name. -/
theorem mem_asNeeded {os : List ObjectType} {n : String} {c : Category} :
    (n, c) ∈ asNeeded os ↔ c = .object ∧ ∃ o ∈ os, o.name = n := by
  simp only [asNeeded, List.mem_map, Prod.mk.injEq]
  constructor
  · rintro ⟨o, ho, rfl, rfl⟩
    exact ⟨rfl, o, ho, rfl⟩
  · rintro ⟨rfl, o, ho, rfl⟩
    exact ⟨o, ho, rfl, rfl⟩

theorem mem_neededByArguments {as : List Argument} {n : String} {c : Category} :
    (n, c) ∈ neededByArguments as ↔ ∃ b ∈ as, b.type.name = n ∧ b.type.category = c := by
  simp [neededByArguments]

/-- What a type reference stands for: the type of its name, or the objects behind it. -/
def StandsFor (X : Expansion) (r : TypeRef) (n : String) (c : Category) : Prop :=
  (r.category.isAbstract = false ∧ r.name = n ∧ r.category = c) ∨
    (c = .object ∧ ∃ o, X r.category r.name o ∧ o.name = n)

theorem neededByType_eq (c : s.Consistent) (t : Tables s a) {r : TypeRef} (hr : r ∈ s.references) :
    ∃ ns, neededByType a r = .ok ns ∧ ∀ n k, (n, k) ∈ ns ↔ StandsFor a.Expands r n k := by
  obtain ⟨os, hos⟩ := t.exists_objectsBehind (c.references r hr)
  unfold neededByType StandsFor
  simp only [expands_iff hos]
  cases hc : r.category with
  | interface =>
    rw [hc] at hos
    exact ⟨asNeeded os, bind_eq_ok.2 ⟨os, hos, rfl⟩, fun n k => by simp [mem_asNeeded, Category.isAbstract]⟩
  | union =>
    rw [hc] at hos
    exact ⟨asNeeded os, bind_eq_ok.2 ⟨os, hos, rfl⟩, fun n k => by simp [mem_asNeeded, Category.isAbstract]⟩
  | _ =>
    rw [hc] at hos
    cases hos
    exact ⟨_, rfl, fun n k => by simp [Category.isAbstract, eq_comm]⟩

theorem references_of_entity {e : Entity} (he : e ∈ s.entities) {f : Field} (hf : f ∈ e.fields) {r : TypeRef}
    (hr : r ∈ f.references) : r ∈ s.references := by
  refine List.mem_flatMap.2 ⟨e.definition, Schema.mem_entities.1 he, ?_⟩
  cases e with
  | object o => exact List.mem_flatMap.2 ⟨f, hf, hr⟩
  | interface i => exact List.mem_flatMap.2 ⟨f, hf, hr⟩
  | union u => cases hf

/-- An enum that an entity refers to is referred to by the schema. -/
theorem Schema.exists_enum_reference {e : Entity} {n : String} (h : s.RefersToEnum e n) :
    ∃ r ∈ s.references, r.category = .enum ∧ r.name = n := by
  have owner : ∀ {name : String} {f : Field}, f ∈ (s.fieldsOf? name).getD [] → ∃ p ∈ s.fieldOwners, f ∈ p.2 := by
    intro name f hf
    cases found : lastOf Prod.fst s.fieldOwners name with
    | none => simp [Schema.fieldsOf?, found] at hf
    | some p => exact ⟨p, (mem_of_lastOf found).1, by simpa [Schema.fieldsOf?, found] using hf⟩
  rcases h with ⟨f, hf, r, hr, hc⟩ | ⟨m, i, -, hi, b, hb, hc⟩
  · cases e with
    | union u => cases hf
    | _ =>
      obtain ⟨p, hp, hf⟩ := owner hf
      exact ⟨r, Schema.references_of_owner hp hf hr, hc⟩
  · exact ⟨b.type, Schema.references_of_input (mem_of_lastOf hi).1 hb, hc⟩

theorem neededByField_eq (c : s.Consistent) (t : Tables s a) {e : Entity} (he : e ∈ s.entities) {f : Field}
    (hf : f ∈ e.fields) : ∃ ns, neededByField a f = .ok ns ∧ ∀ n k, (n, k) ∈ ns ↔
      StandsFor a.Expands f.type n k ∨ ∃ b ∈ f.arguments, b.type.name = n ∧ b.type.category = k := by
  obtain ⟨ns, hns, mem⟩ := neededByType_eq c t (references_of_entity he hf List.mem_cons_self)
  refine ⟨ns ++ neededByArguments f.arguments, bind_eq_ok.2 ⟨ns, hns, rfl⟩, fun n k => ?_⟩
  rw [List.mem_append, mem n k, mem_neededByArguments]

theorem neededByParent_eq (t : Tables s a) {e : Entity} (he : e ∈ s.entities) :
    ∃ ns, neededByParent a e = .ok ns ∧ ∀ n k, (n, k) ∈ ns ↔ k = .object ∧
      ((∃ o, e = .object o ∧ o.name = n) ∨ ∃ o, a.Expands e.definition.category e.name o ∧ o.name = n) := by
  have definition : e.definition ∈ s.definitions := Schema.mem_entities.1 he
  cases e with
  | object o =>
    refine ⟨[(o.name, .object)], rfl, fun n k => ?_⟩
    simp [Entity.definition, Definition.category, Associations.Expands, Associations.objectsBehind, and_comm, eq_comm]
  | interface i =>
    obtain ⟨os, hos⟩ := t.exists_implementors (Schema.defines_interface.2 ⟨i, definition, rfl⟩)
    refine ⟨asNeeded os, bind_eq_ok.2 ⟨os, hos, rfl⟩, fun n k => ?_⟩
    have behind : a.objectsBehind .interface i.name = .ok os := hos
    simp [mem_asNeeded, Entity.definition, Definition.category, Entity.name, expands_iff behind]
  | union u =>
    obtain ⟨os, hos⟩ := t.exists_members (Schema.defines_union.2 ⟨u, definition, rfl⟩)
    refine ⟨asNeeded os, bind_eq_ok.2 ⟨os, hos, rfl⟩, fun n k => ?_⟩
    have behind : a.objectsBehind .union u.name = .ok os := hos
    simp [mem_asNeeded, Entity.definition, Definition.category, Entity.name, expands_iff behind]

theorem neededByInputs_bind (p : Projection) (e : Entity) : neededByInputs p.associations e =
    p.inputTypes e >>= fun is => .ok (is.map fun i => neededByArguments i.fields).flatten := by
  cases e with
  | union u => rfl
  | object o =>
    cases h : p.associations.inputsOf o.name <;> simp [neededByInputs, Projection.inputTypes, Entity.name, h]
  | interface i =>
    cases h : p.associations.inputsOf i.name <;> simp [neededByInputs, Projection.inputTypes, Entity.name, h]

theorem neededByInputs_eq {p : Projection} (t : Tables s p.associations) {e : Entity} (he : e ∈ s.entities) :
    ∃ ns, neededByInputs p.associations e = .ok ns ∧ ∀ n k, (n, k) ∈ ns ↔
      ∃ m i, s.Leads e m ∧ s.input? m = some i ∧ ∃ b ∈ i.fields, b.type.name = n ∧ b.type.category = k := by
  obtain ⟨is, his, -, known, mem⟩ := inputTypes_eq t he
  refine ⟨_, by rw [neededByInputs_bind, his]; rfl, fun n k => ?_⟩
  simp only [List.mem_flatten, List.mem_map]
  constructor
  · rintro ⟨_, ⟨i, hi, rfl⟩, hb⟩
    exact ⟨i.name, i, (mem i.name).1 (List.mem_map_of_mem hi), known i hi, mem_neededByArguments.1 hb⟩
  · rintro ⟨m, i, hm, hi, hb⟩
    obtain ⟨j, hj, rfl⟩ := List.mem_map.1 ((mem m).2 hm)
    cases (known j hj).symm.trans hi
    exact ⟨_, ⟨_, hj, rfl⟩, mem_neededByArguments.2 hb⟩

theorem neededByTypeOf_eq (c : s.Consistent) (t : Tables s a) {e : Entity} (he : e ∈ s.entities) :
    ∃ ns, neededByTypeOf a e = .ok ns ∧ ∀ n k, (n, k) ∈ ns ↔ k = .object ∧
      ∃ o b, e = .object o ∧ s.Possible a.Expands o b ∧ b.name = n := by
  have definition : e.definition ∈ s.definitions := Schema.mem_entities.1 he
  cases e with
  | object o =>
    obtain ⟨ns, hns, -, mem⟩ := possibleTypes_eq t (Schema.mem_objects.2 definition)
      (c.implements o (Schema.mem_objects.2 definition))
    refine ⟨ns.map (·, .object), bind_eq_ok.2 ⟨ns, hns, rfl⟩, fun n k => ?_⟩
    simp only [List.mem_map, Prod.mk.injEq, mem, Entity.object.injEq]
    constructor
    · rintro ⟨_, ⟨b, hb, rfl⟩, rfl, rfl⟩
      exact ⟨rfl, o, b, rfl, hb, rfl⟩
    · rintro ⟨rfl, _, b, rfl, hb, rfl⟩
      exact ⟨_, ⟨b, hb, rfl⟩, rfl, rfl⟩
  | interface i => exact ⟨[], rfl, by simp⟩
  | union u => exact ⟨[], rfl, by simp⟩

/-- The names that are collected for an entity are the needed ones, in some order. -/
theorem neededModels_eq (c : s.Consistent) {p : Projection} (t : Tables s p.associations) {e : Entity}
    (he : e ∈ s.entities) : ∃ ns, neededModels p.associations e = .ok (.ofFirst ns) ∧
      ∀ n k, (n, k) ∈ ns ↔ Needed p.associations.Expands s e n k := by
  obtain ⟨parent, hp, inParent⟩ := neededByParent_eq t he
  obtain ⟨fields, hf⟩ := mapM_isOk fun f hf => (neededByField_eq c t he hf).imp fun _ h => h.1
  obtain ⟨inputs, hi, inInputs⟩ := neededByInputs_eq t he
  obtain ⟨typeOf, ht, inTypeOf⟩ := neededByTypeOf_eq c t he
  have inFields : ∀ n k, (n, k) ∈ fields.flatten ↔ ∃ f ∈ e.fields,
      StandsFor p.associations.Expands f.type n k ∨ ∃ b ∈ f.arguments, b.type.name = n ∧ b.type.category = k := by
    intro n k
    rw [List.mem_flatten]
    constructor
    · rintro ⟨ns, hns, h⟩
      obtain ⟨f, hfe, hfn⟩ := exists_of_mem_mapM hf hns
      obtain ⟨ns', hns', mem⟩ := neededByField_eq c t he hfe
      cases hfn.symm.trans hns'
      exact ⟨f, hfe, (mem n k).1 h⟩
    · rintro ⟨f, hfe, h⟩
      obtain ⟨ns, hns, hfn⟩ := exists_mem_of_mapM hf hfe
      obtain ⟨ns', hns', mem⟩ := neededByField_eq c t he hfe
      cases hfn.symm.trans hns'
      exact ⟨_, hns, (mem n k).2 h⟩
  refine ⟨parent ++ fields.flatten ++ inputs ++ typeOf, ?_, fun n k => ?_⟩
  · unfold neededModels
    rw [hp, ok_bind, hf, ok_bind, hi, ok_bind, ht]
    rfl
  · simp only [List.mem_append, inParent, inFields, inInputs, inTypeOf]
    constructor
    · rintro (((⟨rfl, ⟨o, he, rfl⟩ | ⟨o, ho, rfl⟩⟩ | ⟨f, hf, hn | ⟨b, hb, rfl, rfl⟩⟩) |
        ⟨m, i, hm, hi, b, hb, rfl, rfl⟩) | ⟨rfl, o, b, he, hb, rfl⟩)
      · exact .own he
      · exact .behindOwn ho
      · rcases hn with ⟨concrete, rfl, rfl⟩ | ⟨rfl, o, ho, rfl⟩
        · exact .field hf concrete
        · exact .behindField hf ho
      · exact .argument hf hb
      · exact .inputField hm hi hb
      · exact .typeOf he hb
    · intro h
      cases h with
      | own he => exact .inl (.inl (.inl ⟨rfl, .inl ⟨_, he, rfl⟩⟩))
      | behindOwn ho => exact .inl (.inl (.inl ⟨rfl, .inr ⟨_, ho, rfl⟩⟩))
      | field hf concrete => exact .inl (.inl (.inr ⟨_, hf, .inl (.inl ⟨concrete, rfl, rfl⟩)⟩))
      | behindField hf ho => exact .inl (.inl (.inr ⟨_, hf, .inl (.inr ⟨rfl, _, ho, rfl⟩)⟩))
      | argument hf hb => exact .inl (.inl (.inr ⟨_, hf, .inr ⟨_, hb, rfl, rfl⟩⟩))
      | inputField hm hi hb => exact .inl (.inr ⟨_, _, hm, hi, _, hb, rfl, rfl⟩)
      | typeOf he hb => exact .inr ⟨rfl, _, _, he, hb, rfl⟩

end SchemaTypings

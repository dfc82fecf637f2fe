import SchemaTypings.Proofs.ImportGroups
import SchemaTypings.Proofs.Outcome

/-!
# What the unit of an entity depends on

The unit of an entity is made from the tables of the schema and from the map of its models. Both are only asked about
names in the schema, so that other entries of theirs do not matter.

- `Schema.SameTables`: two tables say the same about all names in a schema;
- `Schema.Asks`: a schema asks for the models of its objects, of the types of fields that are not abstract, and of the
  types of all arguments and input fields;
- `Schema.Answers`: what a map answers to these questions persists in another map;
- `entityUnit_persists`: with the same tables and with answers that persist, the unit of an entity persists as well.
-/

namespace SchemaTypings

open TypeScript

/-! ## Names in a schema -/

/-- A name stands in a schema: it is that of a definition or of a type reference, or it stands after an
`implements`. -/
inductive Schema.Contains (s : Schema) : String → Prop
  | definition {d} : d ∈ s.definitions → Contains s d.name
  | reference {r} : r ∈ s.references → Contains s r.name
  | conformance {o n} : o ∈ s.objects → n ∈ o.implements → Contains s n

theorem Schema.contains_entity {s : Schema} {e : Entity} (he : e ∈ s.entities) : s.Contains e.name := by
  have named : e.definition.name = e.name := by cases e <;> rfl
  exact named ▸ .definition (Schema.mem_entities.1 he)

theorem Schema.contains_input {s : Schema} {n : String} {i : InputType} (h : s.input? n = some i) : s.Contains n := by
  obtain ⟨hi, rfl⟩ := mem_of_lastOf h
  exact .definition (Schema.mem_inputs.1 hi)

/-- Two tables say the same about a name. -/
structure Associations.SameAt (a a' : Associations) (n : String) : Prop where
  inputType : a.inputType n = a'.inputType n
  inputsOf : a.inputsOf n = a'.inputsOf n
  implementors : a.implementors n = a'.implementors n
  members : a.members n = a'.members n
  unionsContaining : a.unionsContaining n = a'.unionsContaining n
  enumsOf : a.enumsOf n = a'.enumsOf n

/-- Two tables say the same about all names in a schema. -/
def Schema.SameTables (s : Schema) (a a' : Associations) : Prop := ∀ {n}, s.Contains n → a.SameAt a' n

theorem Associations.SameAt.refl (a : Associations) (n : String) : a.SameAt a n := ⟨rfl, rfl, rfl, rfl, rfl, rfl⟩

section Tables

variable {s : Schema} {P : Fault → Prop} {a a' : Associations} (t : Tables s a) (same : s.SameTables a a')

include t same

theorem possibleTypes_persists {o : ObjectType} (ho : o ∈ s.objects) :
    Persists P (possibleTypes a o.name o.implements) (possibleTypes a' o.name o.implements) := by
  have own : s.Contains o.name := .definition (Schema.mem_objects.1 ho)
  unfold possibleTypes
  split
  · exact .refl _
  · refine (Persists.mapM fun i hi => .of_eq (same (.conformance ho hi)).implementors).bind fun _ _ => ?_
    refine (Persists.of_eq (same own).unionsContaining).bind fun us hus => ?_
    refine (Persists.mapM fun u hu => .of_eq ?_).bind_same _
    obtain ⟨us', hus', contained⟩ := t.unionsContaining_eq ho
    cases hus.symm.trans hus'
    obtain ⟨w, hw, rfl, -⟩ := (contained u).1 hu
    exact (same (.definition (Schema.mem_unions.1 hw))).members

variable {e : Entity} (he : e ∈ s.entities)

include he

theorem inputTypes_persists {m m' : ModelMap} {roots : Roots} : Persists P (Projection.inputTypes ⟨a, m, roots⟩ e)
    (Projection.inputTypes ⟨a', m', roots⟩ e) := by
  have own : a.SameAt a' e.name := same (Schema.contains_entity he)
  have each : Persists P (a.inputsOf e.name >>= (·.mapM a.inputType)) (a'.inputsOf e.name >>= (·.mapM a'.inputType)) :=
    (Persists.of_eq own.inputsOf).bind fun ns hns => .mapM fun n hn => by
      obtain ⟨-, -, -, -, known⟩ := t.inputsOf_eq_ok hns
      obtain ⟨i, hi⟩ := known n hn
      exact .of_eq (same (Schema.contains_input hi)).inputType
  cases e with
  | union u => exact .refl _
  | _ => exact each

omit t in
theorem enums_persists {m m' : ModelMap} {roots : Roots} (is : List InputType) :
    Persists P (Projection.enums ⟨a, m, roots⟩ is e) (Projection.enums ⟨a', m', roots⟩ is e) := by
  have own : a.SameAt a' e.name := same (Schema.contains_entity he)
  cases e with
  | union u => exact .refl _
  | _ => exact (Persists.of_eq own.enumsOf).bind_same _

omit t in
theorem neededByParent_persists : Persists P (neededByParent a e) (neededByParent a' e) := by
  have own : a.SameAt a' e.name := same (Schema.contains_entity he)
  cases e with
  | object o => exact .refl _
  | interface i => exact (Persists.of_eq own.implementors).bind_same _
  | union u => exact (Persists.of_eq own.members).bind_same _

omit t he in
theorem neededByType_persists {r : TypeRef} (hr : r ∈ s.references) :
    Persists P (neededByType a r) (neededByType a' r) := by
  have own : a.SameAt a' r.name := same (.reference hr)
  unfold neededByType
  cases r.category with
  | interface => exact (Persists.of_eq own.implementors).bind_same _
  | union => exact (Persists.of_eq own.members).bind_same _
  | _ => exact .refl _

theorem neededByTypeOf_persists : Persists P (neededByTypeOf a e) (neededByTypeOf a' e) := by
  cases e with
  | object o =>
    exact (possibleTypes_persists t same (Schema.mem_objects.2 (Schema.mem_entities.1 he))).bind_same _
  | _ => exact .refl _

/-- The needed names of an entity depend on what the tables say about names in the schema. -/
theorem neededModels_persists : Persists P (neededModels a e) (neededModels a' e) := by
  have inputs : Persists P (neededByInputs a e) (neededByInputs a' e) := by
    rw [neededByInputs_bind ⟨a, .empty, s.roots⟩, neededByInputs_bind ⟨a', .empty, s.roots⟩]
    exact (inputTypes_persists t same he).bind_same _
  have fields : Persists P (e.fields.mapM (neededByField a)) (e.fields.mapM (neededByField a')) := .mapM fun f hf =>
    (neededByType_persists same (references_of_entity he hf List.mem_cons_self)).bind_same _
  exact (neededByParent_persists same he).bind fun _ _ => fields.bind fun _ _ =>
    inputs.bind fun _ _ => (neededByTypeOf_persists t same he).bind_same _

end Tables

/-! ## Questions to the model map -/

/-- The arguments in a definition. Those of an input type are its fields. -/
def Definition.arguments : Definition → List Argument
  | .object o => o.fields.flatMap Field.arguments
  | .interface i => i.fields.flatMap Field.arguments
  | .input i => i.fields
  | .union _ | .enum _ => []

namespace Schema

/-- All arguments and input fields of a schema. -/
def arguments (s : Schema) : List Argument := s.definitions.flatMap Definition.arguments

/-- A schema asks for the model of a name under a category. Behind an abstract type there are objects, and it is asked
for these instead; but not where it is the type of an argument. -/
inductive Asks (s : Schema) : String → Category → Prop
  | object {o} : o ∈ s.objects → Asks s o.name .object
  | reference {r} : r ∈ s.references → r.category.isAbstract = false → Asks s r.name r.category
  | argument {b} : b ∈ s.arguments → Asks s b.type.name b.type.category

/-- What a model map answers to a schema persists in another one. -/
def Answers (s : Schema) (P : Fault → Prop) (m m' : ModelMap) : Prop :=
  ∀ n k, s.Asks n k → Persists P (modelFor m s.roots n k) (modelFor m' s.roots n k)

end Schema

variable {s : Schema} {P : Fault → Prop} {m m' : ModelMap}

theorem Schema.arguments_of_field {e : Entity} (he : e ∈ s.entities) {f : Field} (hf : f ∈ e.fields) {b : Argument}
    (hb : b ∈ f.arguments) : b ∈ s.arguments := by
  refine List.mem_flatMap.2 ⟨e.definition, Schema.mem_entities.1 he, ?_⟩
  cases e with
  | union u => cases hf
  | _ => exact List.mem_flatMap.2 ⟨f, hf, hb⟩

theorem Schema.arguments_of_input {i : InputType} (hi : i ∈ s.inputs) {b : Argument} (hb : b ∈ i.fields) :
    b ∈ s.arguments :=
  List.mem_flatMap.2 ⟨.input i, Schema.mem_inputs.1 hi, hb⟩

/-- The types of arguments are references. -/
theorem Schema.references_of_arguments {b : Argument} (hb : b ∈ s.arguments) : b.type ∈ s.references := by
  obtain ⟨d, hd, hb⟩ := List.mem_flatMap.1 hb
  refine List.mem_flatMap.2 ⟨d, hd, ?_⟩
  have of_fields : ∀ fs : List Field, b ∈ fs.flatMap Field.arguments → b.type ∈ fs.flatMap Field.references := by
    intro fs hb
    obtain ⟨f, hf, hb⟩ := List.mem_flatMap.1 hb
    exact List.mem_flatMap.2 ⟨f, hf, List.mem_cons_of_mem _ (List.mem_map_of_mem hb)⟩
  cases d with
  | object o => exact of_fields o.fields hb
  | interface i => exact of_fields i.fields hb
  | input i => exact List.mem_map_of_mem hb
  | union u => cases hb
  | enum e => cases hb

/-- Input types of an entity are input types of the schema. -/
theorem mem_inputs_of_inputTypes {p : Projection} (t : Tables s p.associations) {e : Entity} (he : e ∈ s.entities)
    {is : List InputType} (h : p.inputTypes e = .ok is) {i : InputType} (hi : i ∈ is) : i ∈ s.inputs := by
  obtain ⟨is', his', -, known, -⟩ := inputTypes_eq t he
  cases h.symm.trans his'
  exact (mem_of_lastOf (known i hi)).1

/-- Possible types are objects of the schema. -/
theorem mem_of_possibleTypes {a : Associations} (t : Tables s a) {n : String} {is ns : List String}
    (h : possibleTypes a n is = .ok ns) {m : String} (hm : m ∈ ns) : ∃ o ∈ s.objects, o.name = m := by
  unfold possibleTypes at h
  split at h
  · cases h
    cases hm
  · obtain ⟨implementors, hi, h⟩ := bind_eq_ok.1 h
    obtain ⟨us, -, h⟩ := bind_eq_ok.1 h
    obtain ⟨members, hu, h⟩ := bind_eq_ok.1 h
    cases h
    obtain ⟨o, ho, rfl⟩ := List.mem_map.1 (List.mem_eraseDups.1 hm)
    obtain ⟨os, hos, ho⟩ := List.mem_flatten.1 ho
    rcases List.mem_append.1 hos with hos | hos
    · obtain ⟨i, -, found⟩ := exists_of_mem_mapM hi hos
      exact ⟨o, t.mem_of_implementors found ho, rfl⟩
    · obtain ⟨u, -, found⟩ := exists_of_mem_mapM hu hos
      exact ⟨o, t.mem_of_members found ho, rfl⟩

/-! ## Needed names are asked for -/

/-- A schema asks for the models of all the given names. -/
def Schema.AsksAll (s : Schema) (ns : List (String × Category)) : Prop := ∀ n k, (n, k) ∈ ns → s.Asks n k

theorem Schema.AsksAll.append {ns ms : List (String × Category)} (hn : s.AsksAll ns) (hm : s.AsksAll ms) :
    s.AsksAll (ns ++ ms) := fun n k h => (List.mem_append.1 h).elim (hn n k) (hm n k)

theorem Schema.AsksAll.flatten {nss : List (List (String × Category))} (h : ∀ ns ∈ nss, s.AsksAll ns) :
    s.AsksAll nss.flatten := by
  intro n k hn
  obtain ⟨ns, hns, hn⟩ := List.mem_flatten.1 hn
  exact h ns hns n k hn

theorem asksAll_asNeeded {os : List ObjectType} (objects : ∀ o ∈ os, o ∈ s.objects) : s.AsksAll (asNeeded os) := by
  intro n k h
  obtain ⟨rfl, o, ho, rfl⟩ := mem_asNeeded.1 h
  exact .object (objects o ho)

theorem asksAll_arguments {as : List Argument} (arguments : ∀ b ∈ as, b ∈ s.arguments) :
    s.AsksAll (neededByArguments as) := by
  intro n k h
  obtain ⟨b, hb, rfl, rfl⟩ := mem_neededByArguments.1 h
  exact .argument (arguments b hb)

section Needed

variable {a : Associations} (t : Tables s a)

include t

theorem asksAll_type {r : TypeRef} (hr : r ∈ s.references) {ns : List (String × Category)}
    (h : neededByType a r = .ok ns) : s.AsksAll ns := by
  have asks : r.category.isAbstract = false → s.Asks r.name r.category := .reference hr
  unfold neededByType at h
  cases hc : r.category with
  | interface =>
    rw [hc] at h
    obtain ⟨os, hos, h⟩ := bind_eq_ok.1 h
    cases h
    exact asksAll_asNeeded fun _ => t.mem_of_implementors hos
  | union =>
    rw [hc] at h
    obtain ⟨os, hos, h⟩ := bind_eq_ok.1 h
    cases h
    exact asksAll_asNeeded fun _ => t.mem_of_members hos
  | _ =>
    rw [hc] at h asks
    cases h
    intro n k hn
    obtain ⟨rfl, rfl⟩ := Prod.mk.inj (List.mem_singleton.1 hn)
    exact asks rfl

variable {e : Entity} (he : e ∈ s.entities)

include he

theorem asksAll_parent {ns : List (String × Category)} (h : neededByParent a e = .ok ns) : s.AsksAll ns := by
  cases e with
  | object o =>
    cases h
    intro n k hn
    obtain ⟨rfl, rfl⟩ := Prod.mk.inj (List.mem_singleton.1 hn)
    exact .object (Schema.mem_objects.2 (Schema.mem_entities.1 he))
  | interface i =>
    obtain ⟨os, hos, h⟩ := bind_eq_ok.1 h
    cases h
    exact asksAll_asNeeded fun _ => t.mem_of_implementors hos
  | union u =>
    obtain ⟨os, hos, h⟩ := bind_eq_ok.1 h
    cases h
    exact asksAll_asNeeded fun _ => t.mem_of_members hos

theorem asksAll_typeOf {ns : List (String × Category)} (h : neededByTypeOf a e = .ok ns) : s.AsksAll ns := by
  cases e with
  | object o =>
    obtain ⟨names, hn, h⟩ := bind_eq_ok.1 h
    cases h
    intro n k member
    obtain ⟨m, hm, pair⟩ := List.mem_map.1 member
    cases pair
    obtain ⟨b, hb, rfl⟩ := mem_of_possibleTypes t hn hm
    exact .object hb
  | _ =>
    cases h
    exact nofun

/-- A schema asks for the models of all names that are needed in the unit of an entity. -/
theorem asks_of_needed {needed : OrderedMap String Category} (h : neededModels a e = .ok needed) :
    s.AsksAll needed.entries := by
  obtain ⟨parent, hp, h⟩ := bind_eq_ok.1 h
  obtain ⟨fields, hf, h⟩ := bind_eq_ok.1 h
  obtain ⟨inputs, hi, h⟩ := bind_eq_ok.1 h
  obtain ⟨typeOf, ht, h⟩ := bind_eq_ok.1 h
  cases h
  have inFields : s.AsksAll fields.flatten := .flatten fun ns hns => by
    obtain ⟨f, hfe, hfn⟩ := exists_of_mem_mapM hf hns
    obtain ⟨own, ho, hfn⟩ := bind_eq_ok.1 hfn
    cases hfn
    exact (asksAll_type t (references_of_entity he hfe List.mem_cons_self) ho).append
      (asksAll_arguments fun b => Schema.arguments_of_field he hfe)
  have inInputs : s.AsksAll inputs := by
    rw [neededByInputs_bind ⟨a, .empty, s.roots⟩] at hi
    obtain ⟨is, his, hi⟩ := bind_eq_ok.1 hi
    cases hi
    refine .flatten fun ns hns => ?_
    obtain ⟨i, hi, rfl⟩ := List.mem_map.1 hns
    exact asksAll_arguments fun b => Schema.arguments_of_input (mem_inputs_of_inputTypes t he his hi)
  have all := (((asksAll_parent t he hp).append inFields).append inInputs).append (asksAll_typeOf t he ht)
  exact fun n k hn => all n k (OrderedMap.mem_of_mem_ofFirst hn)

end Needed

/-! ## Types -/

/-- The type of an object follows from the answer to the question for its model. -/
theorem objectType_eq_bind (p : Projection) (n : String) : p.objectType n = (do
    let model ← modelFor p.models p.roots n .object
    return .ident ((model.map Model.typeName).getD "undefined")) := by
  unfold Projection.objectType modelFor
  cases p.models.objectModel? p.roots n with
  | some model => rfl
  | none =>
    dsimp only
    split <;> rfl

/-- The question for the model of a scalar never fails. -/
theorem modelFor_scalar (m : ModelMap) (roots : Roots) (n : String) :
    modelFor m roots n .scalar = .ok (m.model? roots .scalar n) := by
  rw [modelFor_eq, if_neg]
  rintro ⟨object, -⟩
  cases object

/-- The type of a scalar depends on its model only. -/
theorem scalarType_congr {a : Associations} {roots : Roots} {n : String}
    (same : m.model? roots .scalar n = m'.model? roots .scalar n) :
    Projection.scalarType ⟨a, m, roots⟩ n = Projection.scalarType ⟨a, m', roots⟩ n := by
  unfold Projection.scalarType
  split
  case h_6 =>
    -- both maps have the same external model for the name, or none
    simp only [ModelMap.model?] at same
    cases hm : m.lookup n <;> cases hm' : m'.lookup n <;> simp_all
  all_goals rfl

section Types

variable {a a' : Associations} (answers : s.Answers P m m')

include answers

/-- An answer that is a model is the same in the other map. -/
theorem model?_eq_of_answers {n : String} {k : Category} (asks : s.Asks n k) {model : Option Model}
    (h : modelFor m s.roots n k = .ok model) : m.model? s.roots k n = m'.model? s.roots k n := by
  rw [← modelFor_eq_ok h, ← modelFor_eq_ok ((answers n k asks).result model h)]

theorem objectType_persists {n : String} (asks : s.Asks n .object) :
    Persists P (Projection.objectType ⟨a, m, s.roots⟩ n) (Projection.objectType ⟨a', m', s.roots⟩ n) := by
  rw [objectType_eq_bind, objectType_eq_bind]
  exact (answers n .object asks).bind_same _

theorem objectTypes_persists {os : List ObjectType} (objects : ∀ o ∈ os, o ∈ s.objects) :
    Persists P (Projection.objectTypes ⟨a, m, s.roots⟩ os) (Projection.objectTypes ⟨a', m', s.roots⟩ os) :=
  (Persists.mapM fun o ho => objectType_persists answers (.object (objects o ho))).bind_same _

variable (t : Tables s a) (same : s.SameTables a a')

include t same

theorem interfaceType_persists {n : String} (hn : s.Contains n) :
    Persists P (Projection.interfaceType ⟨a, m, s.roots⟩ n) (Projection.interfaceType ⟨a', m', s.roots⟩ n) :=
  (Persists.of_eq (same hn).implementors).bind fun _ hos =>
    objectTypes_persists answers fun _ => t.mem_of_implementors hos

theorem unionType_persists {n : String} (hn : s.Contains n) :
    Persists P (Projection.unionType ⟨a, m, s.roots⟩ n) (Projection.unionType ⟨a', m', s.roots⟩ n) :=
  (Persists.of_eq (same hn).members).bind fun _ hos => objectTypes_persists answers fun _ => t.mem_of_members hos

theorem entityType_persists {e : Entity} (he : e ∈ s.entities) :
    Persists P (Projection.entityType ⟨a, m, s.roots⟩ e) (Projection.entityType ⟨a', m', s.roots⟩ e) := by
  cases e with
  | object o => exact objectType_persists answers (.object (Schema.mem_objects.2 (Schema.mem_entities.1 he)))
  | interface i => exact interfaceType_persists answers t same (Schema.contains_entity he)
  | union u => exact unionType_persists answers t same (Schema.contains_entity he)

theorem project_persists {r : TypeRef} (hr : r ∈ s.references) :
    Persists P (Projection.project ⟨a, m, s.roots⟩ r) (Projection.project ⟨a', m', s.roots⟩ r) := by
  have asks : r.category.isAbstract = false → s.Asks r.name r.category := .reference hr
  have named : Persists P (Projection.namedType ⟨a, m, s.roots⟩ r.name r.category)
      (Projection.namedType ⟨a', m', s.roots⟩ r.name r.category) := by
    cases hc : r.category with
    | scalar =>
      have model := model?_eq_of_answers answers (hc ▸ asks (by rw [hc]; rfl)) (modelFor_scalar m s.roots r.name)
      exact .of_eq (congrArg Except.ok (scalarType_congr model))
    | object => exact objectType_persists answers (hc ▸ asks (by rw [hc]; rfl))
    | interface => exact interfaceType_persists answers t same (.reference hr)
    | union => exact unionType_persists answers t same (.reference hr)
    | enum => exact .refl _
    | input => exact .refl _
  exact named.bind_same _

theorem inputMembers_persists {as : List Argument} (arguments : ∀ b ∈ as, b ∈ s.arguments) :
    Persists P (Projection.inputMembers ⟨a, m, s.roots⟩ as) (Projection.inputMembers ⟨a', m', s.roots⟩ as) :=
  Persists.mapM fun b hb =>
    (project_persists answers t same (Schema.references_of_arguments (arguments b hb))).bind_same _

/-! ## Declarations -/

variable {e : Entity} (he : e ∈ s.entities) (context : TypeExpr)

include he

theorem typeMembers_persists : Persists P (Projection.typeMembers ⟨a, m, s.roots⟩ context e)
    (Projection.typeMembers ⟨a', m', s.roots⟩ context e) := by
  have own : a.SameAt a' e.name := same (Schema.contains_entity he)
  cases e with
  | object o =>
    refine (possibleTypes_persists t same (Schema.mem_objects.2 (Schema.mem_entities.1 he))).bind fun ns hns => ?_
    split
    · exact .refl _
    · refine (Persists.mapM fun n hn => ?_).bind_same _
      obtain ⟨b, hb, rfl⟩ := mem_of_possibleTypes t hns hn
      exact objectType_persists answers (.object hb)
  | interface i =>
    refine (Persists.of_eq own.implementors).bind fun os hos => ?_
    exact (objectTypes_persists answers fun _ => t.mem_of_implementors hos).bind_same _
  | union u =>
    refine (Persists.of_eq own.members).bind fun os hos => ?_
    exact (objectTypes_persists answers fun _ => t.mem_of_members hos).bind_same _

omit t same in
/-- Where an entity has a type, its default resolvers are the same. -/
theorem entityDefaults?_eq {type : TypeExpr} (h : Projection.entityType ⟨a, m, s.roots⟩ e = .ok type)
    (switches : Switches) : Projection.entityDefaults? ⟨a, m, s.roots⟩ switches e =
      Projection.entityDefaults? ⟨a', m', s.roots⟩ switches e := by
  cases e with
  | object o =>
    have asks : s.Asks o.name .object := .object (Schema.mem_objects.2 (Schema.mem_entities.1 he))
    have found : Projection.objectType ⟨a, m, s.roots⟩ o.name = .ok type := h
    rw [objectType_eq_bind] at found
    obtain ⟨model, hm, -⟩ := bind_eq_ok.1 found
    have same : m.objectModel? s.roots o.name = m'.objectModel? s.roots o.name := model?_eq_of_answers answers asks hm
    simp only [Projection.entityDefaults?, same]
  | interface i => rfl
  | union u => rfl

/-- The draft of an entity depends on the models that the schema asks for. -/
theorem draft_persists (switches : Switches) :
    Draft.Persists P (EntityDeclarations.draft ⟨a, m, s.roots⟩ context switches e)
      (EntityDeclarations.draft ⟨a', m', s.roots⟩ context switches e) := by
  have argumentsOf : ∀ f ∈ e.fields, ∀ b ∈ f.arguments, b ∈ s.arguments := fun f hf b hb =>
    Schema.arguments_of_field he hf hb
  have typeOf : ∀ f ∈ e.fields, f.type ∈ s.references := fun f hf => references_of_entity he hf List.mem_cons_self
  unfold EntityDeclarations.draft
  -- input types and enums are looked up without models, everything behind them refers to some
  refine .lift_bind (inputTypes_persists t same he) fun inputs his => ?_
  refine .lift_bind (enums_persists same he inputs) fun enums _ => ?_
  refine Draft.Persists.bind (.mapM fun i hi => ?_) fun inputInterfaces => ?_
  · have fields : ∀ b ∈ i.fields, b ∈ s.arguments := fun b hb =>
      Schema.arguments_of_input (mem_inputs_of_inputTypes (p := ⟨a, m, s.roots⟩) t he his hi) hb
    refine Draft.Persists.bind (.refl _) fun _ => .lift_bind ?_ fun _ _ => .refl _
    exact (inputMembers_persists answers t same fields).bind_same _
  refine Draft.Persists.bind (.mapM fun f hf => ?_) fun argumentInterfaces => ?_
  · refine .lift_bind ?_ fun _ _ => .refl _
    exact (inputMembers_persists answers t same (argumentsOf f (List.mem_of_mem_filter hf))).bind_same _
  refine .lift_bind (entityType_persists answers t same he) fun parent hp => ?_
  refine Draft.Persists.bind (.mapM fun f hf => ?_) fun resolvers => ?_
  · refine Draft.Persists.bind (.refl _) fun _ => .lift_bind ?_ fun _ _ => .refl _
    exact (project_persists answers t same (typeOf f hf)).bind_same _
  refine Draft.Persists.bind (.refl _) fun _ => ?_
  refine .lift_bind (typeMembers_persists answers t same he context) fun members _ => ?_
  rw [entityDefaults?_eq answers he hp]
  exact .refl _

theorem build_persists (switches : Switches) :
    Persists P (EntityDeclarations.build ⟨a, m, s.roots⟩ context switches e)
      (EntityDeclarations.build ⟨a', m', s.roots⟩ context switches e) :=
  (draft_persists answers t same he context switches []).bind_same _

end Types

/-! ## Units -/

section Units

variable {s s' : Schema} {context : Option ContextType} {switches : Switches} {a a' : Associations}
  (answers : s.Answers P m m') (roots : s'.roots = s.roots) (t : Tables s a) (same : s.SameTables a a') {e : Entity}
  (he : e ∈ s.entities)

include answers roots t same he

theorem importGroups_persists : Persists P (Source.importGroups ⟨s, m, context, switches⟩ a e)
    (Source.importGroups ⟨s', m', context, switches⟩ a' e) := by
  refine (neededModels_persists t same he).bind fun needed hn => ?_
  have asks : s.AsksAll needed.entries := asks_of_needed t he hn
  have groups : Persists P (groupByModule m s.roots needed) (groupByModule m' s'.roots needed) := by
    rw [roots]
    exact (Persists.mapM fun x hx => answers x.1 x.2 (asks x.1 x.2 hx)).bind_same _
  exact groups.bind_same _

/-- The unit of an entity depends on what the tables say about names in the schema, on the models that the schema asks
for, and on the root operation types. -/
theorem entityUnit_persists : Persists P (Source.entityUnit ⟨s, m, context, switches⟩ a e)
    (Source.entityUnit ⟨s', m', context, switches⟩ a' e) := by
  have built : ∀ type, Persists P (EntityDeclarations.build ⟨a, m, s.roots⟩ type switches e)
      (EntityDeclarations.build ⟨a', m', s'.roots⟩ type switches e) := fun type => by
    rw [roots]
    exact build_persists answers t same he type switches
  exact Persists.bind (built _) fun _ _ => (importGroups_persists answers roots t same he).bind_same _

end Units

end SchemaTypings

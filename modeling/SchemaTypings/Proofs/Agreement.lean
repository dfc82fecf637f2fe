import Mathlib
import SchemaTypings.Proofs.Outcome

/-!
# Declarations and imports agree

The declarations of an entity and the imports of its unit are computed one after the other, by two walks through the
entity that look up objects on their own. The walk of the declarations is the stricter one: each object whose model is
to be imported has been looked up before, and so has each interface and union behind which such objects stand.

- `Projection.Backs`: the objects among needed names have a model or can do without one;
- `neededByType_of_project` and the lemmas after it: where a part of the declarations is rendered, the names needed for
  it are found and backed. No schema takes part in this, so it holds for inconsistent ones as well;
- `imports_follow_declarations`: an entity unit fails only where its declarations do, and with their fault.
-/

namespace SchemaTypings

open TypeScript

/-- The objects among needed names have a model or can do without one. -/
def Projection.Backs (p : Projection) (ns : List (String × Category)) : Prop :=
  ∀ n, (n, .object) ∈ ns → p.models.Backs p.roots n

variable {p : Projection} {e : Entity}

/-! ## Backed names can be imported -/

theorem modelFor_of_backs {models : ModelMap} {roots : Roots} {n : String} {k : Category}
    (h : k = .object → models.Backs roots n) : ∃ o, modelFor models roots n k = .ok o := by
  cases found : modelFor models roots n k with
  | ok o => exact ⟨o, rfl⟩
  | error f =>
    obtain ⟨⟨object, none, root⟩, -⟩ := modelFor_eq_error.1 found
    have backed := h object
    rw [ModelMap.backs_iff] at backed
    simp [none, root] at backed

/-- Of several entries for a name the first counts, and that one is backed too. -/
theorem groupByModule_of_backs {ns : List (String × Category)} (h : p.Backs ns) :
    ∃ g, groupByModule p.models p.roots (.ofFirst ns) = .ok g := by
  have steps : ∀ x ∈ (OrderedMap.ofFirst ns).entries, ∃ o, modelFor p.models p.roots x.1 x.2 = .ok o := by
    rintro ⟨n, k⟩ hx
    refine modelFor_of_backs fun hk => ?_
    subst hk
    exact h n (OrderedMap.mem_of_mem_ofFirst hx)
  obtain ⟨found, hf⟩ := mapM_isOk steps
  exact ⟨_, bind_eq_ok.2 ⟨found, hf, rfl⟩⟩

/-! ## What is rendered is backed -/

theorem Projection.backs_asNeeded {os : List ObjectType} {t : TypeExpr} (h : p.objectTypes os = .ok t) :
    p.Backs (asNeeded os) := by
  intro n hn
  obtain ⟨-, o, ho, rfl⟩ := mem_asNeeded.1 hn
  obtain ⟨ts, hts, -⟩ := bind_eq_ok.1 h
  obtain ⟨_, -, ht⟩ := exists_mem_of_mapM hts ho
  exact (objectType_eq_ok ht).1

theorem backs_of_project {r : TypeRef} {t : TypeExpr} (h : p.project r = .ok t) (hr : r.category = .object) :
    p.models.Backs p.roots r.name := by
  obtain ⟨named, hn, -⟩ := bind_eq_ok.1 h
  rw [hr] at hn
  exact (objectType_eq_ok hn).1

theorem neededByType_of_project {r : TypeRef} {t : TypeExpr} (h : p.project r = .ok t) :
    ∃ ns, neededByType p.associations r = .ok ns ∧ p.Backs ns := by
  have alone : p.Backs [(r.name, r.category)] := by
    intro n hn
    obtain ⟨rfl, hr⟩ := Prod.mk.inj (List.mem_singleton.1 hn)
    exact backs_of_project h hr.symm
  obtain ⟨named, hn, -⟩ := bind_eq_ok.1 h
  unfold neededByType
  cases hc : r.category with
  | interface =>
    rw [hc] at hn
    obtain ⟨os, hos, ht⟩ := bind_eq_ok.1 hn
    exact ⟨asNeeded os, bind_eq_ok.2 ⟨os, hos, rfl⟩, Projection.backs_asNeeded ht⟩
  | union =>
    rw [hc] at hn
    obtain ⟨os, hos, ht⟩ := bind_eq_ok.1 hn
    exact ⟨asNeeded os, bind_eq_ok.2 ⟨os, hos, rfl⟩, Projection.backs_asNeeded ht⟩
  | _ => exact ⟨_, rfl, hc ▸ alone⟩

theorem backs_neededByArguments {as : List Argument} {ms : List (Member TypeExpr)} (h : p.inputMembers as = .ok ms) :
    p.Backs (neededByArguments as) := by
  intro n hn
  obtain ⟨b, hb, rfl, hc⟩ := mem_neededByArguments.1 hn
  obtain ⟨_, -, hm⟩ := exists_mem_of_mapM h hb
  obtain ⟨t, ht, -⟩ := bind_eq_ok.1 hm
  exact backs_of_project ht hc

theorem Projection.Backs.append {ns ms : List (String × Category)} (hn : p.Backs ns) (hm : p.Backs ms) :
    p.Backs (ns ++ ms) := fun n h => (List.mem_append.1 h).elim (hn n) (hm n)

theorem Projection.Backs.flatten {nss : List (List (String × Category))} (h : ∀ ns ∈ nss, p.Backs ns) :
    p.Backs nss.flatten := by
  intro n hn
  obtain ⟨ns, hns, hn⟩ := List.mem_flatten.1 hn
  exact h ns hns n hn

/-! ## The parts of an entity -/

theorem neededByParent_of_entityType {t : TypeExpr} (h : p.entityType e = .ok t) :
    ∃ ns, neededByParent p.associations e = .ok ns ∧ p.Backs ns := by
  cases e with
  | object o =>
    refine ⟨[(o.name, .object)], rfl, fun n hn => ?_⟩
    obtain ⟨rfl, -⟩ := Prod.mk.inj (List.mem_singleton.1 hn)
    exact (objectType_eq_ok h).1
  | interface i =>
    obtain ⟨os, hos, ht⟩ := bind_eq_ok.1 h
    exact ⟨asNeeded os, bind_eq_ok.2 ⟨os, hos, rfl⟩, Projection.backs_asNeeded ht⟩
  | union u =>
    obtain ⟨os, hos, ht⟩ := bind_eq_ok.1 h
    exact ⟨asNeeded os, bind_eq_ok.2 ⟨os, hos, rfl⟩, Projection.backs_asNeeded ht⟩

theorem neededByTypeOf_of_typeMembers {context : TypeExpr} {ms : List (Member TypeExpr)}
    (h : p.typeMembers context e = .ok ms) : ∃ ns, neededByTypeOf p.associations e = .ok ns ∧ p.Backs ns := by
  cases e with
  | object o =>
    obtain ⟨possible, hp, h⟩ := bind_eq_ok.1 h
    refine ⟨possible.map (·, .object), bind_eq_ok.2 ⟨possible, hp, rfl⟩, fun n hn => ?_⟩
    obtain ⟨m, hm, he⟩ := List.mem_map.1 hn
    obtain ⟨rfl, -⟩ := Prod.mk.inj he
    rw [if_neg (by simpa using List.ne_nil_of_mem hm)] at h
    obtain ⟨values, hv, -⟩ := bind_eq_ok.1 h
    obtain ⟨_, -, ht⟩ := exists_mem_of_mapM hv hm
    exact (objectType_eq_ok ht).1
  | interface i => exact ⟨[], rfl, fun _ h => by cases h⟩
  | union u => exact ⟨[], rfl, fun _ h => by cases h⟩

namespace EntityParts

variable {context : TypeExpr} (x : EntityParts p context e)

include x

/-- Each field is projected for its resolver, and its arguments for their interface if there are any. -/
theorem exists_neededByField {f : Field} (hf : f ∈ e.fields) :
    ∃ ns, neededByField p.associations f = .ok ns ∧ p.Backs ns := by
  obtain ⟨_, -, hr⟩ := exists_mem_of_mapM x.resolvers_eq hf
  obtain ⟨t, ht, -⟩ := bind_eq_ok.1 hr
  obtain ⟨ns, hns, own⟩ := neededByType_of_project ht
  have arguments : p.Backs (neededByArguments f.arguments) := by
    -- a field without arguments has no interface for them, but nothing is needed for it either
    by_cases none : f.arguments.isEmpty = true
    · rw [List.isEmpty_iff.1 none]
      exact fun _ h => by cases h
    · have some : f ∈ e.fields.filter fun f => !f.arguments.isEmpty := List.mem_filter.2 ⟨hf, by simpa using none⟩
      obtain ⟨_, -, hi⟩ := exists_mem_of_mapM x.argumentInterfaces_eq some
      obtain ⟨ms, hms, -⟩ := bind_eq_ok.1 hi
      exact backs_neededByArguments hms
  exact ⟨ns ++ neededByArguments f.arguments, bind_eq_ok.2 ⟨ns, hns, rfl⟩, own.append arguments⟩

theorem exists_neededByInputs : ∃ ns, neededByInputs p.associations e = .ok ns ∧ p.Backs ns := by
  refine ⟨_, (neededByInputs_bind p e).trans (bind_eq_ok.2 ⟨x.inputs, x.inputs_eq, rfl⟩), .flatten fun ns hns => ?_⟩
  obtain ⟨i, hi, rfl⟩ := List.mem_map.1 hns
  obtain ⟨_, -, hd⟩ := exists_mem_of_mapM x.inputInterfaces_eq hi
  obtain ⟨ms, hms, -⟩ := bind_eq_ok.1 hd
  exact backs_neededByArguments hms

/-- The names that an entity needs are found and backed. -/
theorem exists_neededModels : ∃ ns, neededModels p.associations e = .ok (.ofFirst ns) ∧ p.Backs ns := by
  obtain ⟨parent, hp, inParent⟩ := neededByParent_of_entityType x.parent_eq
  obtain ⟨inputs, hi, inInputs⟩ := x.exists_neededByInputs
  obtain ⟨typeOf, ht, inTypeOf⟩ := neededByTypeOf_of_typeMembers x.typeMembers_eq
  obtain ⟨fields, hf⟩ := mapM_isOk fun f hf => (x.exists_neededByField hf).imp fun _ h => h.1
  have inFields : p.Backs fields.flatten := .flatten fun ns hns => by
    obtain ⟨f, hfe, hfn⟩ := exists_of_mem_mapM hf hns
    obtain ⟨ns', hns', backed⟩ := x.exists_neededByField hfe
    cases hfn.symm.trans hns'
    exact backed
  refine ⟨parent ++ fields.flatten ++ inputs ++ typeOf, ?_,
    ((inParent.append inFields).append inInputs).append inTypeOf⟩
  unfold neededModels
  rw [hp, ok_bind, hf, ok_bind, hi, ok_bind, ht]
  rfl

end EntityParts

/-! ## Units -/

/-- Where the declarations of an entity are rendered, its needed names are found and grouped. -/
theorem groups_of_build {context : TypeExpr} {switches : Switches} {built : EntityDeclarations}
    (h : EntityDeclarations.build p context switches e = .ok built) :
    ∃ needed groups, neededModels p.associations e = .ok needed ∧
      groupByModule p.models p.roots needed = .ok groups := by
  obtain ⟨-, content⟩ := EntityDeclarations.build_eq_ok.1 h
  obtain ⟨x, -⟩ := EntityDeclarations.content_eq_ok content
  obtain ⟨ns, hns, backed⟩ := x.exists_neededModels
  obtain ⟨groups, hg⟩ := groupByModule_of_backs backed
  exact ⟨_, groups, hns, hg⟩

/-- The unit of an entity fails where its declarations do, and with their fault. -/
theorem entityUnit_eq_error_iff {src : Source} {a : Associations} {f : Fault} : src.entityUnit a e = .error f ↔
    EntityDeclarations.build (src.projection a) src.contextType src.switches e = .error f := by
  unfold Source.entityUnit
  rw [bind_eq_error]
  constructor
  · rintro (h | ⟨built, hb, h⟩)
    · exact h
    · obtain ⟨needed, groups, hn, hg⟩ := groups_of_build hb
      have imports : ∃ g, src.importGroups a e = .ok g :=
        ⟨_, bind_eq_ok.2 ⟨needed, hn, bind_eq_ok.2 ⟨groups, hg, rfl⟩⟩⟩
      obtain ⟨g, hg⟩ := imports
      rw [hg] at h
      cases h
  · exact .inl

/-- Whatever a schema refers to: once the declarations of an entity are accepted, the names that it needs are found and
their models are grouped. So the imports never decide whether a unit is rejected, nor why. -/
theorem imports_follow_declarations {src : Source} {a : Associations} (tables : Associations.build src.schema = .ok a)
    (format : Formatter) :
    (∀ e ∈ src.schema.entities, ∀ context switches built,
      EntityDeclarations.build (src.projection a) context switches e = .ok built →
        ∃ needed groups, neededModels a e = .ok needed ∧
          groupByModule src.models src.schema.roots needed = .ok groups) ∧
    (∀ e ∈ src.schema.entities, ∀ f, src.entityUnit a e = .error f ↔
      EntityDeclarations.build (src.projection a) src.contextType src.switches e = .error f) ∧
    ∀ f, src.generate format = .error f → ∃ e ∈ src.schema.entities,
      EntityDeclarations.build (src.projection a) src.contextType src.switches e = .error f := by
  refine ⟨fun e _ context switches built h => groups_of_build h, fun e _ f => entityUnit_eq_error_iff, fun f h => ?_⟩
  have units : src.units = .error f := by
    rw [src.generate_eq] at h
    rcases bind_eq_error.1 h with h | ⟨_, _, h⟩
    · exact h
    · cases h
  unfold Source.units at units
  rw [tables, ok_bind] at units
  rcases bind_eq_error.1 units with loop | ⟨_, _, h⟩
  · obtain ⟨e, he, h⟩ := mapM_eq_error loop
    exact ⟨e, he, entityUnit_eq_error_iff.1 h⟩
  · cases h

/-- A query for an object by a key of a type that nothing defines. -/
def strayQuery : ObjectType :=
  ⟨"Query", [⟨"find", ⟨"Stray", .object, true, []⟩, [⟨"key", ⟨"Key", .enum, true, []⟩⟩]⟩], []⟩

/-- An object with a field of a type that nothing defines. -/
def stray : ObjectType := ⟨"Stray", [⟨"home", ⟨"Home", .interface, true, []⟩, []⟩], []⟩

/-- A schema that no document has, with models for all objects. -/
def straySource : Source :=
  ⟨⟨[.object strayQuery, .object stray], .standard⟩, ModelMap.empty.withDefaultModule "./models", none, .off⟩

/-- The tables of `straySource`. -/
def strayTables : Associations where
  inputTypes := .empty
  inputsByOwner := ⟨[("Query", []), ("Stray", [])]⟩
  implementorsByInterface := .empty
  membersByUnion := .empty
  unionsByMember := ⟨[("Query", []), ("Stray", [])]⟩
  enumsByOwner := ⟨[("Query", ["Key"]), ("Stray", [])]⟩

/-- The declarations of the query are rendered, and its imports are grouped. The unit of the object is rejected for its
field, before any import is looked for. -/
theorem imports_follow_declarations_stray : Associations.build straySource.schema = .ok strayTables ∧
    (∃ needed groups, neededModels strayTables (.object strayQuery) = .ok needed ∧
      groupByModule straySource.models .standard needed = .ok groups) ∧
    straySource.entityUnit strayTables (.object stray) = .error (.unknownType "Home") := by
  have tables : Associations.build straySource.schema = .ok strayTables := by cbv
  have rendered : ∃ built, EntityDeclarations.build (straySource.projection strayTables) (.ident "any") .off
      (.object strayQuery) = .ok built := ⟨_, by cbv⟩
  obtain ⟨built, rendered⟩ := rendered
  obtain ⟨imports, faults, -⟩ := imports_follow_declarations tables .passthrough
  refine ⟨tables, imports (.object strayQuery) (by decide) _ _ built rendered, ?_⟩
  exact (faults (.object stray) (by decide) _).2 (by decide +kernel)

end SchemaTypings

import SchemaTypings.Proofs.ImportGroups
import SchemaTypings.Proofs.Outcome
import SchemaTypings.Proofs.Unions

/-!
# Telling the objects behind an abstract type apart

Which objects the type checks in the aggregates of a document are about, read off its `implements` clauses and unions.

- `Document.implementors`, `Document.Kin`: who implements an interface, and which objects have a common interface or
  union;
- `union_eq_choice`, `resolveTypeFunction_eq`: the types of the checks, written out for a list of object names;
- `typeMembers_interface`, `typeMembers_union`, `typeMembers_object`: the checks of an aggregate are about exactly the
  objects that the document says;
- `abstract_types_resolved`: this holds for the aggregate of every generated entity unit.
-/

namespace SchemaTypings

open TypeScript

/-! ## Objects of a document -/

namespace Sdl

/-- The object types whose `implements` clause lists an interface, in declaration order. -/
def Document.implementors (d : Document) (interface : String) : List String :=
  (d.objectClauses.filter fun c => interface ∈ c.2).map Prod.fst

/-- Two object types implement a common interface or belong to a common union. -/
def Document.Kin (d : Document) (m n : String) : Prop :=
  (∃ is js, (m, is) ∈ d.objectClauses ∧ (n, js) ∈ d.objectClauses ∧ ∃ i ∈ is, i ∈ js) ∨
    ∃ w ms, (w, ms) ∈ d.unionClauses ∧ m ∈ ms ∧ n ∈ ms

variable {d : Document} {s : Schema} (h : d.schema = .ok s) (distinct : (d.types.map TypeDefinition.name).Nodup)

include h

theorem mem_objectClauses {name : String} {is : List String} :
    (name, is) ∈ d.objectClauses ↔ ∃ o ∈ s.objects, o.name = name ∧ o.implements = is := by
  simp [← schema_objectClauses h]

theorem mem_unionClauses {name : String} {ms : List String} :
    (name, ms) ∈ d.unionClauses ↔ ∃ w ∈ s.unions, w.name = name ∧ w.members = ms := by
  simp [← schema_unionClauses h]

include distinct

theorem nodup_implementors (interface : String) : (d.implementors interface).Nodup := by
  have names : (d.objectClauses.map Prod.fst).Nodup := by
    simpa [← schema_objectClauses h, Function.comp_def] using
      Schema.nodup_objects (schema_unambiguous h distinct).distinct
  exact names.sublist (List.filter_sublist.map _)

/-- An object counts once as an implementor, however often it lists the interface. -/
theorem implementors_eq (interface : String) :
    ((s.declaring interface).map ObjectType.name).eraseDups = d.implementors interface := by
  have blocks : s.declarers interface =
      s.objects.flatMap fun o => List.replicate (o.implements.count interface) o.name := by
    simp only [Schema.declarers, List.map_const', List.count_eq_length_filter]
  have objects : (s.objects.map ObjectType.name).Nodup := Schema.nodup_objects (schema_unambiguous h distinct).distinct
  rw [Schema.map_name_declaring, blocks, eraseDups_flatMap_replicate _ objects, Document.implementors,
    ← schema_objectClauses h, List.filter_map, List.map_map]
  simp [Function.comp_def, List.count_pos_iff]

/-- The objects that the type-of check of an object accepts are its kin. -/
theorem possible_iff_kin {o : ObjectType} (ho : o ∈ s.objects) (some : o.implements ≠ []) {n : String} :
    (∃ b, s.Possible s.Expands o b ∧ b.name = n) ↔ d.Kin o.name n := by
  have u : s.Unambiguous := schema_unambiguous h distinct
  have c : s.Consistent := schema_consistent h
  have own : ∀ {is}, (o.name, is) ∈ d.objectClauses ↔ is = o.implements := by
    intro is
    rw [mem_objectClauses h]
    constructor
    · rintro ⟨o', ho', name, rfl⟩
      rw [List.inj_on_of_nodup_map (Schema.nodup_objects u.distinct) ho' ho name]
    · exact fun e => ⟨o, ho, rfl, e.symm⟩
  constructor
  · rintro ⟨b, ⟨-, ⟨i, hi, hb, hbi⟩ | ⟨w, hw, how, hb, w', hw', name, hbw⟩⟩, rfl⟩
    · exact .inl ⟨_, _, own.2 rfl, (mem_objectClauses h).2 ⟨b, hb, rfl, rfl⟩, i, hi, hbi⟩
    · cases List.inj_on_of_nodup_map (Schema.nodup_unions u.distinct) hw' hw name
      exact .inr ⟨_, _, (mem_unionClauses h).2 ⟨w, hw, rfl, rfl⟩, how, hbw⟩
  · rintro (⟨is, js, ho', hn, i, hi, hj⟩ | ⟨_, _, union, hom, hn⟩)
    · obtain rfl := own.1 ho'
      obtain ⟨b, hb, rfl, rfl⟩ := (mem_objectClauses h).1 hn
      exact ⟨b, ⟨some, .inl ⟨i, hi, hb, hj⟩⟩, rfl⟩
    · obtain ⟨w, hw, rfl, rfl⟩ := (mem_unionClauses h).1 union
      obtain ⟨b, hb, rfl⟩ := Schema.defines_object.1 (c.members w hw n hn)
      exact ⟨b, ⟨some, .inr ⟨w, hw, hom, Schema.mem_objects.2 hb, w, hw, rfl, hn⟩⟩, rfl⟩

end Sdl

/-! ## The types of the checks -/

namespace TypeScript.TypeExpr

/-- The type whose values are those of one of the given types: a union of them unless there is only one, and `never` if
there is none. -/
def choice : List TypeExpr → TypeExpr
  | [] => never
  | [t] => t
  | ts => .oneOf ts

/-- A union of types that are no unions themselves is a choice between them. -/
theorem union_eq_choice {ts : List TypeExpr} (atoms : ∀ t ∈ ts, t.alternatives = [t]) :
    union ts = choice ts.eraseDups := by
  have flat : ts.flatMap alternatives = ts := by
    rw [List.flatMap_congr atoms]
    exact List.flatMap_singleton' ts
  unfold union
  rw [flat]
  rfl

theorem alternatives_choice {ts : List TypeExpr} (atoms : ∀ t ∈ ts, t.alternatives = [t]) :
    (choice ts).alternatives = if ts = [] then [never] else ts := by
  match ts with
  | [] => rfl
  | [t] => exact atoms t List.mem_cons_self
  | _ :: _ :: _ => rfl

/-- One of the given string literals, or the promise of one. Without any of them there is neither. -/
def literalOrPromise (names : List String) : TypeExpr :=
  .oneOf ((if names = [] then [never] else names.map literal) ++ [.generic "Promise" (choice (names.map literal))])

theorem literal_injective : Function.Injective literal := fun m n h => by
  injection h with h
  injection h

theorem maybePromise_literals {names : List String} (distinct : names.Nodup) :
    maybePromise (choice (names.map literal)) = literalOrPromise names := by
  have atoms : ∀ t ∈ names.map literal, t.alternatives = [t] := by
    intro t ht
    obtain ⟨n, -, rfl⟩ := List.mem_map.1 ht
    rfl
  have bare : (choice (names.map literal)).alternatives = if names = [] then [never] else names.map literal := by
    rw [alternatives_choice atoms]
    simp only [List.map_eq_nil_iff]
  have nodup : (choice (names.map literal)).alternatives.Nodup := by
    rw [bare]
    split
    · exact List.nodup_singleton _
    · exact distinct.map literal_injective
  have no_promise : generic "Promise" (choice (names.map literal)) ∉ (choice (names.map literal)).alternatives := by
    rw [bare]
    split <;> simp [generic, never, ident, literal]
  rw [literalOrPromise, ← bare]
  refine or_eq_oneOf ?_ rfl (nodup.append (List.nodup_singleton _) (List.disjoint_singleton.2 no_promise))
  rw [bare]
  split <;> simp_all

end TypeScript.TypeExpr

namespace Source

variable (src : Source)

/-- The type of the values of objects with the given names. -/
def valuesOf (names : List String) : TypeExpr :=
  .choice (names.map fun n => .ident (src.models.valueName src.schema.roots n)).eraseDups

/-- The check that names the object behind a value, for objects with the given names. -/
def resolveType (names : List String) (optional : Bool) : Member TypeExpr :=
  ⟨"__resolveType", .function [.required "value" (src.valuesOf names), .required "context" src.contextType,
    .required "info" (.ident resolveInfo)] (.literalOrPromise names), optional⟩

/-- The check whether a value is that of one object, for values of objects with the given names. -/
def typeOf (names : List String) : Member TypeExpr :=
  ⟨"__isTypeOf", .named (.ident isTypeOf) [src.valuesOf names, src.contextType], true⟩

variable {src} {a : Associations}

/-- The values of objects are those of their names, where each name counts once. -/
theorem union_objectTypes {α : Type} {name : α → String} {xs : List α} {ts : List TypeExpr}
    (h : xs.mapM (fun x => (src.projection a).objectType (name x)) = .ok ts) :
    .union ts = src.valuesOf (xs.map name).eraseDups := by
  have types : ts = xs.map fun x => .ident (src.models.valueName src.schema.roots (name x)) := mapM_objectType_eq h
  have atoms : ∀ t ∈ ts, t.alternatives = [t] := by
    intro t ht
    rw [types] at ht
    obtain ⟨x, -, rfl⟩ := List.mem_map.1 ht
    rfl
  rw [TypeExpr.union_eq_choice atoms, valuesOf, eraseDups_map_eraseDups, List.map_map, types]
  rfl

theorem resolveTypeFunction_eq {os : List ObjectType} {values : TypeExpr}
    (h : (src.projection a).objectTypes os = .ok values) (optional : Bool) :
    ⟨"__resolveType", resolveTypeFunction src.contextType values os, optional⟩ =
      src.resolveType (os.map ObjectType.name).eraseDups optional := by
  obtain ⟨ts, hts, h⟩ := bind_eq_ok.1 h
  cases h
  have literals : TypeExpr.union (os.map fun o => .literal o.name) =
      .choice ((os.map ObjectType.name).eraseDups.map .literal) := by
    have atoms : ∀ t ∈ os.map fun o => TypeExpr.literal o.name, t.alternatives = [t] := by
      intro t ht
      obtain ⟨o, -, rfl⟩ := List.mem_map.1 ht
      rfl
    rw [TypeExpr.union_eq_choice atoms, ← eraseDups_map_of_injective TypeExpr.literal_injective, List.map_map]
    rfl
  unfold resolveTypeFunction resolveType
  rw [union_objectTypes hts, literals, TypeExpr.maybePromise_literals (nodup_eraseDups _)]

/-! ## The checks of an aggregate -/

variable {d : Sdl.Document} (accepted : d.schema = .ok src.schema)
  (distinct : (d.types.map Sdl.TypeDefinition.name).Nodup) (t : Tables src.schema a) {ms : List (Member TypeExpr)}

include accepted distinct t

theorem typeMembers_interface {i : InterfaceType} (hi : i ∈ src.schema.interfaces)
    (h : (src.projection a).typeMembers src.contextType (.interface i) = .ok ms) :
    ms = [src.resolveType (d.implementors i.name) false] := by
  obtain ⟨os, hos, h⟩ := bind_eq_ok.1 h
  obtain ⟨values, hv, h⟩ := bind_eq_ok.1 h
  cases h
  have declaring : a.implementors i.name = .ok (src.schema.declaring i.name) :=
    (Sdl.schema_unambiguous accepted distinct).implementors_eq t hi
  cases declaring.symm.trans hos
  rw [resolveTypeFunction_eq hv, Sdl.implementors_eq accepted distinct]

theorem typeMembers_union {w : UnionType} (hw : w ∈ src.schema.unions)
    (h : (src.projection a).typeMembers src.contextType (.union w) = .ok ms) :
    ms = [src.resolveType w.members.eraseDups true] := by
  obtain ⟨os, hos, h⟩ := bind_eq_ok.1 h
  obtain ⟨values, hv, h⟩ := bind_eq_ok.1 h
  cases h
  obtain ⟨os', hos', names, -⟩ := Schema.members_eq (Sdl.schema_unambiguous accepted distinct).distinct t hw
  cases hos'.symm.trans hos
  rw [resolveTypeFunction_eq hv, names]

/-- An object has a type-of check if it implements an interface. Such an object is its own kin, so the check always
accepts some object. -/
theorem typeMembers_object {o : ObjectType} (ho : o ∈ src.schema.objects)
    (h : (src.projection a).typeMembers src.contextType (.object o) = .ok ms) :
    if o.implements = [] then ms = []
    else ∃ names, names.Nodup ∧ (∀ n, n ∈ names ↔ d.Kin o.name n) ∧ ms = [src.typeOf names] := by
  have c : src.schema.Consistent := Sdl.schema_consistent accepted
  obtain ⟨names, hn, nodup, mem⟩ := possibleTypes_eq t ho (c.implements o ho)
  rw [expands_eq c (Sdl.schema_unambiguous accepted distinct) t] at mem
  obtain ⟨names', hn', h⟩ := bind_eq_ok.1 h
  cases hn.symm.trans hn'
  split
  · rename_i none
    have empty : names = [] := List.eq_nil_iff_forall_not_mem.2 fun n hn => by
      obtain ⟨b, ⟨some, -⟩, -⟩ := (mem n).1 hn
      exact some none
    rw [empty] at h
    cases h
    rfl
  · rename_i some
    -- the check is there only if `names` is not empty, and that is for the object itself to see to
    obtain ⟨i, hi⟩ := List.exists_mem_of_ne_nil _ some
    have own : o.name ∈ names := (mem o.name).2 ⟨o, ⟨some, .inl ⟨i, hi, ho, hi⟩⟩, rfl⟩
    rw [if_neg (by simpa using List.ne_nil_of_mem own)] at h
    obtain ⟨values, hv, h⟩ := bind_eq_ok.1 h
    cases h
    have kin : ∀ n, n ∈ names ↔ d.Kin o.name n := fun n =>
      (mem n).trans (Sdl.possible_iff_kin accepted distinct ho some)
    refine ⟨names, nodup, kin, ?_⟩
    have union : .union values = src.valuesOf (names.map id).eraseDups := union_objectTypes hv
    rw [union, List.map_id, eraseDups_of_nodup nodup]
    rfl

end Source

/-- The aggregate of an entity has a type-of check: it is an object that implements an interface. -/
def Entity.hasTypeOf : Entity → Bool
  | .object o => !o.implements.isEmpty
  | .interface _ | .union _ => false

/-- The unit of an entity imports the type of a type-of check if its aggregate has one. -/
theorem EntityParts.hasTypeOf_eq {src : Source} {a : Associations} {e : Entity} {d : Sdl.Document}
    (accepted : d.schema = .ok src.schema) (distinct : (d.types.map Sdl.TypeDefinition.name).Nodup)
    (t : Tables src.schema a) (he : e ∈ src.schema.entities)
    (x : EntityParts (src.projection a) src.contextType e) : (x.assemble src.switches).hasTypeOf = e.hasTypeOf := by
  cases e with
  | object o =>
    have ho : o ∈ src.schema.objects := Schema.mem_objects.2 (Schema.mem_entities.1 he)
    have members := Source.typeMembers_object accepted distinct t ho x.typeMembers_eq
    by_cases some : o.implements = []
    · rw [if_pos some] at members
      simp [assemble, Entity.hasTypeOf, members, some]
    · rw [if_neg some] at members
      obtain ⟨names, -, -, members⟩ := members
      simp [assemble, Entity.hasTypeOf, members, some]
  | interface i => rfl
  | union w => rfl

/-- A name that begins with two underscores. -/
def Reserved (name : String) : Prop := "__".toList <+: name.toList

instance : DecidablePred Reserved := fun name => inferInstanceAs (Decidable ("__".toList <+: name.toList))

/-- The members of an interface under a key. -/
def TypeScript.Interface.membersAt (x : Interface) (key : String) : List (Member TypeExpr) :=
  x.members.filter (·.key == key)

/-- The aggregate `x` of an entity tells types apart as the document says, and the import at the head of the unit lists
the type of a type-of check if there is one. -/
def Source.TellsApart (src : Source) (d : Sdl.Document) (u : EntityUnit) (x : Interface) : Entity → Prop
  | .interface i => (d.implementors i.name).Nodup ∧
      x.membersAt "__resolveType" = [src.resolveType (d.implementors i.name) false] ∧
      u.imports.head? = some ⟨[resolveInfo], "graphql"⟩
  | .union w => ∃ members, (w.name, members) ∈ d.unionClauses ∧
      x.membersAt "__resolveType" = [src.resolveType members.eraseDups true] ∧
      u.imports.head? = some ⟨[resolveInfo], "graphql"⟩
  | .object o => ∃ interfaces, (o.name, interfaces) ∈ d.objectClauses ∧
      if interfaces = [] then
        x.membersAt "__isTypeOf" = [] ∧ u.imports.head? = some ⟨[resolveInfo], "graphql"⟩
      else
        ∃ names, names.Nodup ∧ (∀ n, n ∈ names ↔ d.Kin o.name n) ∧ x.membersAt "__isTypeOf" = [src.typeOf names] ∧
          u.imports.head? = some ⟨[resolveInfo, isTypeOf], "graphql"⟩

section Units

variable {src : Source} {a : Associations} {e : Entity} {x : EntityParts (src.projection a) src.contextType e}

/-- Under a reserved key an aggregate has no members for fields. -/
theorem membersAt_aggregate (reserved : ∀ f ∈ e.fields, ¬Reserved f.name) {key : String} (hk : Reserved key) :
    x.aggregate.membersAt key = x.typeMembers.filter (·.key == key) := by
  have fields : (fieldMembers e).filter (·.key == key) = [] := by
    refine List.filter_eq_nil_iff.2 fun m hm => ?_
    obtain ⟨f, hf, rfl⟩ := List.mem_map.1 hm
    simp only [Member.required, beq_iff_eq]
    rintro rfl
    exact reserved f hf hk
  rw [TypeScript.Interface.membersAt, EntityParts.aggregate, List.filter_append, fields, List.nil_append]

/-- The aggregate is the only declaration of its name. -/
theorem aggregate_unique {v : EntityUnit} (hv : src.entityUnit a e = .ok v)
    (parts : v.declarations = (x.assemble src.switches).declarations) :
    .interface x.aggregate ∈ v.declarations ∧
      ∀ y ∈ v.declarations, y.name = aggregateName e.name → y = .interface x.aggregate := by
  have aggregate : .interface x.aggregate ∈ v.declarations := by
    rw [parts]
    simp [EntityParts.assemble]
  exact ⟨aggregate, fun y hy name => List.inj_on_of_nodup_map (nodup_declarations hv) hy aggregate name⟩

end Units

/-- The aggregate of every generated entity unit tells types apart as the document says. No name may be defined twice,
and no field may have a name that is reserved. -/
theorem abstract_types_resolved {d : Sdl.Document} {src : Source} (accepted : d.schema = .ok src.schema)
    (distinct : (d.types.map Sdl.TypeDefinition.name).Nodup)
    (reserved : ∀ e ∈ src.schema.entities, ∀ f ∈ e.fields, ¬Reserved f.name) {format : Formatter}
    {us : List OutputUnit} (generated : src.generate format = .ok us) :
    src.EachUnit format us fun e u => ∃ x, .interface x ∈ u.declarations ∧ x.name = aggregateName e.name ∧
      (∀ y ∈ u.declarations, y.name = aggregateName e.name → y = .interface x) ∧ src.TellsApart d u x e := by
  refine eachUnit_of_generate generated fun a ha e he v hv => ?_
  have t : Tables src.schema a := tables_of_build ha
  obtain ⟨x, g, -, parts⟩ := entityUnit_eq_ok hv
  obtain ⟨declared, unique⟩ := aggregate_unique hv (congrArg EntityUnit.declarations parts)
  refine ⟨x.aggregate, declared, rfl, unique, ?_⟩
  have head : v.imports.head? = some (EntityUnit.libraryImport e.hasTypeOf) := by
    rw [parts, ← x.hasTypeOf_eq accepted distinct t he]
    rfl
  have definition : e.definition ∈ src.schema.definitions := Schema.mem_entities.1 he
  have resolve : x.aggregate.membersAt "__resolveType" = x.typeMembers.filter (·.key == "__resolveType") :=
    membersAt_aggregate (reserved e he) (by decide)
  have check : x.aggregate.membersAt "__isTypeOf" = x.typeMembers.filter (·.key == "__isTypeOf") :=
    membersAt_aggregate (reserved e he) (by decide)
  cases e with
  | interface i =>
    have members := Source.typeMembers_interface accepted distinct t (Schema.mem_interfaces.2 definition)
      x.typeMembers_eq
    exact ⟨Sdl.nodup_implementors accepted distinct i.name, by rw [resolve, members]; rfl, head⟩
  | union w =>
    have hw : w ∈ src.schema.unions := Schema.mem_unions.2 definition
    have members := Source.typeMembers_union accepted distinct t hw x.typeMembers_eq
    exact ⟨w.members, (Sdl.mem_unionClauses accepted).2 ⟨w, hw, rfl, rfl⟩, by rw [resolve, members]; rfl, head⟩
  | object o =>
    have ho : o ∈ src.schema.objects := Schema.mem_objects.2 definition
    have members := Source.typeMembers_object accepted distinct t ho x.typeMembers_eq
    refine ⟨o.implements, (Sdl.mem_objectClauses accepted).2 ⟨o, ho, rfl, rfl⟩, ?_⟩
    by_cases some : o.implements = []
    · rw [if_pos some] at members ⊢
      exact ⟨by rw [check, members]; rfl, by simp [head, Entity.hasTypeOf, some, EntityUnit.libraryImport]⟩
    · rw [if_neg some] at members ⊢
      obtain ⟨names, nodup, kin, members⟩ := members
      exact ⟨names, nodup, kin, by rw [check, members]; rfl,
        by simp [head, Entity.hasTypeOf, some, EntityUnit.libraryImport]⟩

theorem abstract_types_resolved_library : ∃ us, librarySource.generate .passthrough = .ok us ∧
    librarySource.EachUnit .passthrough us fun e u => ∃ x, .interface x ∈ u.declarations ∧
      x.name = aggregateName e.name ∧ (∀ y ∈ u.declarations, y.name = aggregateName e.name → y = .interface x) ∧
      librarySource.TellsApart library u x e := by
  obtain ⟨us, generated⟩ := library_generates
  exact ⟨us, generated, abstract_types_resolved library_accepted (by decide) (by decide) generated⟩

end SchemaTypings

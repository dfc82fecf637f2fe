import SchemaTypings.Proofs.Computation
import SchemaTypings.Proofs.Tables
import SchemaTypings.Sdl.Scope

/-!
# Consistent schemas

What the resolution of names in a document guarantees about the schema that comes out of it.

- `Sdl.typeRef_eq`: resolving a written type is looking its name up. The modifiers have no part in it
  (`TypeSyntax.reference`).
- `Schema.Consistent`: whatever a schema refers to it defines, with the category of the reference. Every schema of a
  document is consistent (`schema_consistent`), even if the document defines a name twice.
- `Schema.Unambiguous`: moreover names are defined once, so that a name has one category wherever it stands, and an
  interface lists exactly those who declare it. This holds for documents with distinct names (`schema_unambiguous`).
-/

namespace SchemaTypings

/-! ## Definitions by category -/

/-- The category under which a definition is referred to. -/
def Definition.category : Definition → Category
  | .object _ => .object
  | .interface _ => .interface
  | .union _ => .union
  | .enum _ => .enum
  | .input _ => .input

/-- The definition of an entity. -/
def Entity.definition : Entity → Definition
  | .object o => .object o
  | .interface i => .interface i
  | .union u => .union u

/-- The type of a field and those of its arguments. -/
def Field.references (f : Field) : List TypeRef := f.type :: f.arguments.map Argument.type

/-- The type references in a definition. -/
def Definition.references : Definition → List TypeRef
  | .object o => o.fields.flatMap Field.references
  | .interface i => i.fields.flatMap Field.references
  | .input i => i.fields.map Argument.type
  | .union _ | .enum _ => []

namespace Schema

variable {s : Schema}

/-- A name has a definition of the given category. -/
def Defines (s : Schema) (c : Category) (name : String) : Prop :=
  ∃ d ∈ s.definitions, d.name = name ∧ d.category = c

/-- All type references of a schema. -/
def references (s : Schema) : List TypeRef := s.definitions.flatMap Definition.references

/-- A selection that undoes a constructor selects the arguments of that constructor. -/
theorem mem_filterMap_of_inverse {α β : Type} {f : α → Option β} {g : β → α} (inverse : ∀ a b, f a = some b ↔ a = g b)
    {xs : List α} {b : β} : b ∈ xs.filterMap f ↔ g b ∈ xs := by
  simp [List.mem_filterMap, inverse]

@[simp] theorem mem_objects {o : ObjectType} : o ∈ s.objects ↔ .object o ∈ s.definitions :=
  mem_filterMap_of_inverse (by rintro ⟨⟩ _ <;> simp [Definition.object?])

@[simp] theorem mem_interfaces {i : InterfaceType} : i ∈ s.interfaces ↔ .interface i ∈ s.definitions :=
  mem_filterMap_of_inverse (by rintro ⟨⟩ _ <;> simp [Definition.interface?])

@[simp] theorem mem_unions {u : UnionType} : u ∈ s.unions ↔ .union u ∈ s.definitions :=
  mem_filterMap_of_inverse (by rintro ⟨⟩ _ <;> simp [Definition.union?])

@[simp] theorem mem_enums {e : EnumType} : e ∈ s.enums ↔ .enum e ∈ s.definitions :=
  mem_filterMap_of_inverse (by rintro ⟨⟩ _ <;> simp [Definition.enum?])

@[simp] theorem mem_inputs {i : InputType} : i ∈ s.inputs ↔ .input i ∈ s.definitions :=
  mem_filterMap_of_inverse (by rintro ⟨⟩ _ <;> simp [Definition.input?])

@[simp] theorem mem_entities {e : Entity} : e ∈ s.entities ↔ e.definition ∈ s.definitions :=
  mem_filterMap_of_inverse (by rintro ⟨⟩ ⟨⟩ <;> simp [Definition.entity?, Entity.definition])

/-- The definitions of a category are the values of its constructor. -/
theorem defines_iff {α : Type} {g : α → Definition} {c : Category} (of_category : ∀ d, d.category = c ↔ ∃ a, d = g a)
    {name : String} : s.Defines c name ↔ ∃ a, g a ∈ s.definitions ∧ (g a).name = name := by
  constructor
  · rintro ⟨d, hd, hn, hc⟩
    obtain ⟨a, rfl⟩ := (of_category d).1 hc
    exact ⟨a, hd, hn⟩
  · rintro ⟨a, ha, hn⟩
    exact ⟨g a, ha, hn, (of_category _).2 ⟨a, rfl⟩⟩

theorem defines_object {name : String} : s.Defines .object name ↔ ∃ o, .object o ∈ s.definitions ∧ o.name = name :=
  defines_iff (by rintro ⟨⟩ <;> simp [Definition.category])

theorem defines_interface {name : String} :
    s.Defines .interface name ↔ ∃ i, .interface i ∈ s.definitions ∧ i.name = name :=
  defines_iff (by rintro ⟨⟩ <;> simp [Definition.category])

theorem defines_union {name : String} : s.Defines .union name ↔ ∃ u, .union u ∈ s.definitions ∧ u.name = name :=
  defines_iff (by rintro ⟨⟩ <;> simp [Definition.category])

theorem defines_enum {name : String} : s.Defines .enum name ↔ ∃ e, .enum e ∈ s.definitions ∧ e.name = name :=
  defines_iff (by rintro ⟨⟩ <;> simp [Definition.category])

theorem defines_input {name : String} : s.Defines .input name ↔ ∃ i, .input i ∈ s.definitions ∧ i.name = name :=
  defines_iff (by rintro ⟨⟩ <;> simp [Definition.category])

/-- Whatever a schema refers to it defines. -/
structure Consistent (s : Schema) : Prop where
  references : ∀ r ∈ s.references, r.category ≠ .scalar → s.Defines r.category r.name
  implements : ∀ o ∈ s.objects, ∀ n ∈ o.implements, s.Defines .interface n
  implementors : ∀ i ∈ s.interfaces, ∀ n ∈ i.implementors, s.Defines .object n
  members : ∀ u ∈ s.unions, ∀ n ∈ u.members, s.Defines .object n

/-- The names of the objects that declare conformance to an interface, in order and as often as they declare it. -/
def declarers (s : Schema) (interface : String) : List String :=
  s.objects.flatMap fun o => (o.implements.filter (· == interface)).map fun _ => o.name

/-- Names are defined once and mean the same wherever they stand. -/
structure Unambiguous (s : Schema) : Prop where
  distinct : (s.definitions.map Definition.name).Nodup
  categories : ∀ r ∈ s.references, ∀ d ∈ s.definitions, d.name = r.name → d.category = r.category
  implementors : ∀ i ∈ s.interfaces, i.implementors = s.declarers i.name

end Schema

/-! ## Resolution in a scope -/

namespace Sdl

variable {ts : List TypeDefinition} {scope : Scope}

theorem mem_of_category? {name : String} {c : Category} (h : (Scope.ofTypes ts).category? name = some c)
    (hc : c ≠ .scalar) : ∃ t ∈ ts, t.name = name ∧ t.category = c := by
  have hm := mem_of_lookup h
  simp only [Scope.ofTypes, List.mem_append, List.mem_reverse, List.mem_map] at hm
  rcases hm with ⟨t, ht, he⟩ | ⟨n, -, he⟩
  · cases he
    exact ⟨t, ht, rfl, rfl⟩
  · cases he
    exact absurd rfl hc

/-- A name that is defined once has the category of its definition. -/
theorem category?_of_mem (distinct : (ts.map TypeDefinition.name).Nodup) {t : TypeDefinition} (ht : t ∈ ts) :
    (Scope.ofTypes ts).category? t.name = some t.category := by
  have hn : ((ts.map fun t => (t.name, t.category)).reverse.map Prod.fst).Nodup := by
    simpa [List.map_reverse, List.map_map, Function.comp_def] using distinct
  have hm : (t.name, t.category) ∈ (ts.map fun t => (t.name, t.category)).reverse :=
    List.mem_reverse.2 (List.mem_map_of_mem ht)
  unfold Scope.category? Scope.ofTypes
  rw [List.lookup_append, lookup_of_mem hn hm, Option.some_or]

theorem category_eq_ok {name : String} {c : Category} :
    scope.category name = .ok c ↔ scope.category? name = some c := by
  unfold Scope.category
  cases scope.category? name <;> simp

theorem require_eq_ok {expected : Category} {otherwise : String → Fault} {name : String} :
    scope.require expected otherwise name = .ok () ↔ scope.category? name = some expected := by
  unfold Scope.require
  rw [bind_eq_ok]
  constructor
  · rintro ⟨c, hc, h⟩
    split at h
    · rename_i he
      exact he ▸ category_eq_ok.1 hc
    · cases h
  · intro h
    exact ⟨expected, category_eq_ok.2 h, by rw [if_pos rfl]; rfl⟩

theorem forM_require_eq_ok {expected : Category} {otherwise : String → Fault} :
    ∀ {names : List String}, names.forM (scope.require expected otherwise) = .ok () →
      ∀ n ∈ names, scope.category? n = some expected
  | [], _, _, h => by cases h
  | m :: names, h, n, hn => by
    rw [List.forM_eq_forM, List.forM_cons] at h
    obtain ⟨⟨⟩, hm, h⟩ := bind_eq_ok.1 h
    rcases List.mem_cons.1 hn with rfl | hn
    · exact require_eq_ok.1 hm
    · exact forM_require_eq_ok h n hn

/-- The reference that a written type makes if its name has the given category. -/
def TypeSyntax.reference (c : Category) : TypeSyntax → TypeRef
  | .named n nonNull => ⟨n, c, !nonNull, []⟩
  | .list t nonNull =>
    { t.reference c with layers := (t.reference c).layers ++ [if nonNull then .nonNull else .nullable] }

@[simp] theorem TypeSyntax.reference_name (c : Category) : ∀ t : TypeSyntax, (t.reference c).name = t.name
  | .named _ _ => rfl
  | .list t _ => t.reference_name c

@[simp] theorem TypeSyntax.reference_category (c : Category) : ∀ t : TypeSyntax, (t.reference c).category = c
  | .named _ _ => rfl
  | .list t _ => t.reference_category c

/-- An exclamation mark behind a list excludes `null` in its place only. -/
theorem nonNull_list (r : TypeRef) : r.list.nonNull = { r with layers := r.layers ++ [.nonNull] } := by
  unfold TypeRef.nonNull TypeRef.list
  dsimp only
  split
  · simp_all
  · simp

/-- Only the name of a type is looked up. -/
theorem typeRef_eq : ∀ t : TypeSyntax, scope.typeRef t = return t.reference (← scope.category t.name)
  | .named n nonNull => by
    rw [Scope.typeRef]
    congr 1
    funext c
    cases nonNull <;> rfl
  | .list t nonNull => by
    rw [Scope.typeRef, typeRef_eq t, bind_assoc]
    congr 1
    funext c
    cases nonNull
    · rfl
    · exact congrArg Except.ok (nonNull_list _)

theorem typeRef_eq_ok {t : TypeSyntax} {r : TypeRef} :
    scope.typeRef t = .ok r ↔ ∃ c, scope.category t.name = .ok c ∧ r = t.reference c := by
  rw [typeRef_eq, bind_eq_ok]
  simp [pure, Except.pure, eq_comm]

/-- The category of a reference is the one that its name has in scope. -/
def Sound (scope : Scope) (r : TypeRef) : Prop := scope.category? r.name = some r.category

theorem typeRef_sound {t : TypeSyntax} {r : TypeRef} (h : scope.typeRef t = .ok r) : Sound scope r := by
  obtain ⟨c, hc, rfl⟩ := typeRef_eq_ok.1 h
  unfold Sound
  rw [TypeSyntax.reference_name, TypeSyntax.reference_category]
  exact category_eq_ok.1 hc

theorem inputs_sound {is : List InputSyntax} {as : List Argument} (h : scope.inputs is = .ok as) :
    ∀ r ∈ as.map Argument.type, Sound scope r := by
  intro r hr
  obtain ⟨a, ha, rfl⟩ := List.mem_map.1 hr
  obtain ⟨i, -, hi⟩ := exists_of_mem_mapM h ha
  obtain ⟨t, ht, hi⟩ := bind_eq_ok.1 hi
  cases hi
  exact typeRef_sound ht

theorem fields_sound {fs : List FieldSyntax} {fields : List Field} (h : scope.fields fs = .ok fields) :
    ∀ r ∈ fields.flatMap Field.references, Sound scope r := by
  intro r hr
  obtain ⟨field, hf, hr⟩ := List.mem_flatMap.1 hr
  obtain ⟨f, -, hf⟩ := exists_of_mem_mapM h hf
  obtain ⟨t, ht, hf⟩ := bind_eq_ok.1 hf
  obtain ⟨as, has, hf⟩ := bind_eq_ok.1 hf
  cases hf
  rcases List.mem_cons.1 hr with rfl | hr
  · exact typeRef_sound ht
  · exact inputs_sound has r hr

/-- The name of an object with the names after its `implements`. -/
def TypeDefinition.objectClause? : TypeDefinition → Option (String × List String)
  | .object n is _ => some (n, is)
  | _ => none

/-- The name of a union with its members. -/
def TypeDefinition.unionClause? : TypeDefinition → Option (String × List String)
  | .union n ms => some (n, ms)
  | _ => none

/-- The name of an enum with its values. -/
def TypeDefinition.enumClause? : TypeDefinition → Option (String × List String)
  | .enum n vs => some (n, vs)
  | _ => none

/-- What a type definition resolves to. -/
structure Resolves (scope : Scope) (t : TypeDefinition) (d : Definition) : Prop where
  name : d.name = t.name
  category : d.category = t.category
  references : ∀ r ∈ d.references, Sound scope r
  implements : ∀ o, d = .object o → (∃ fs, t = .object o.name o.implements fs) ∧
    ∀ n ∈ o.implements, scope.category? n = some .interface
  implementors : ∀ i, d = .interface i → i.implementors = []
  members : ∀ u, d = .union u → t = .union u.name u.members ∧ ∀ n ∈ u.members, scope.category? n = some .object
  values : ∀ e, d = .enum e → t = .enum e.name e.values

/-- A type definition resolves to nothing only if it is that of a scalar. -/
theorem definition_resolves : ∀ {t : TypeDefinition} {o : Option Definition}, scope.definition t = .ok o →
    (t.category = .scalar ∧ o = none) ∨ (t.category ≠ .scalar ∧ ∃ d, o = some d ∧ Resolves scope t d)
  | .scalar n, o, h => by
    cases h
    exact .inl ⟨rfl, rfl⟩
  | .object n is fs, o, h => by
    obtain ⟨⟨⟩, his, h⟩ := bind_eq_ok.1 h
    obtain ⟨fields, hf, h⟩ := bind_eq_ok.1 h
    cases h
    refine .inr ⟨nofun, _, rfl, rfl, rfl, fields_sound hf, ?_, nofun, nofun, nofun⟩
    rintro o ⟨⟩
    exact ⟨⟨fs, rfl⟩, forM_require_eq_ok his⟩
  | .interface n is fs, o, h => by
    obtain ⟨fields, hf, h⟩ := bind_eq_ok.1 h
    cases h
    refine .inr ⟨nofun, _, rfl, rfl, rfl, fields_sound hf, nofun, ?_, nofun, nofun⟩
    rintro i ⟨⟩
    rfl
  | .union n ms, o, h => by
    obtain ⟨⟨⟩, hms, h⟩ := bind_eq_ok.1 h
    cases h
    refine .inr ⟨nofun, _, rfl, rfl, rfl, nofun, nofun, nofun, ?_, nofun⟩
    rintro u ⟨⟩
    exact ⟨rfl, forM_require_eq_ok hms⟩
  | .enum n vs, o, h => by
    cases h
    refine .inr ⟨nofun, _, rfl, rfl, rfl, nofun, nofun, nofun, nofun, ?_⟩
    rintro e ⟨⟩
    rfl
  | .input n fs, o, h => by
    obtain ⟨fields, hf, h⟩ := bind_eq_ok.1 h
    cases h
    exact .inr ⟨nofun, _, rfl, rfl, rfl, inputs_sound hf, nofun, nofun, nofun, nofun⟩

/-! ## Implementors of interfaces -/

/-- Sets the implementors of an interface. -/
def withImplementors (names : List String) : Definition → Definition
  | .interface i => .interface { i with implementors := names }
  | d => d

variable {names : List String} {d : Definition}

@[simp] theorem name_withImplementors : (withImplementors names d).name = d.name := by cases d <;> rfl

@[simp] theorem category_withImplementors : (withImplementors names d).category = d.category := by cases d <;> rfl

@[simp] theorem references_withImplementors : (withImplementors names d).references = d.references := by
  cases d <;> rfl

@[simp] theorem object?_withImplementors : (withImplementors names d).object? = d.object? := by cases d <;> rfl

@[simp] theorem union?_withImplementors : (withImplementors names d).union? = d.union? := by cases d <;> rfl

@[simp] theorem enum?_withImplementors : (withImplementors names d).enum? = d.enum? := by cases d <;> rfl

theorem withImplementors_eq_interface {i : InterfaceType} (h : withImplementors names d = .interface i) :
    i.implementors = names := by
  cases d <;> cases h
  rfl

/-- Only interfaces change. -/
theorem withImplementors_eq_self {d' : Definition} (h : withImplementors names d = d') (hd : d'.category ≠ .interface) :
    d = d' := by
  subst h
  cases d <;> first | rfl | exact absurd rfl hd

/-- Filling in the implementors goes through the definitions one by one, and keeps the names of the interfaces that it
has seen. -/
theorem fillImplementors_cons (ts : List TypeDefinition) (seen : List String) (d : Definition) :
    ∃ seen', seen ⊆ seen' ∧ seen' ⊆ d.name :: seen ∧ ∀ ds, fillImplementors ts seen (d :: ds) =
      withImplementors (if d.name ∈ seen then [] else implementorsOf ts d.name) d :: fillImplementors ts seen' ds := by
  cases d with
  | interface i => exact ⟨i.name :: seen, List.subset_cons_self _ _, List.Subset.refl _, fun _ => rfl⟩
  | _ => exact ⟨seen, List.Subset.refl _, List.subset_cons_self _ _, fun _ => rfl⟩

theorem forall₂_fillImplementors (ts : List TypeDefinition) : ∀ (ds : List Definition) (seen : List String),
    List.Forall₂ (fun d d' => ∃ names, names ⊆ implementorsOf ts d.name ∧ d' = withImplementors names d) ds
      (fillImplementors ts seen ds)
  | [], _ => .nil
  | d :: ds, seen => by
    obtain ⟨seen', -, -, h⟩ := fillImplementors_cons ts seen d
    rw [h]
    refine .cons ⟨_, ?_, rfl⟩ (forall₂_fillImplementors ts ds seen')
    split
    · exact List.nil_subset _
    · exact List.Subset.refl _

/-- What does not depend on implementors is selected from the same definitions as before. -/
theorem filterMap_fillImplementors {α : Type} {f : Definition → Option α}
    (keeps : ∀ names d, f (withImplementors names d) = f d) (ts : List TypeDefinition) :
    ∀ (ds : List Definition) (seen : List String), (fillImplementors ts seen ds).filterMap f = ds.filterMap f
  | [], _ => rfl
  | d :: ds, seen => by
    obtain ⟨seen', -, -, h⟩ := fillImplementors_cons ts seen d
    rw [h, List.filterMap_cons, List.filterMap_cons, keeps, filterMap_fillImplementors keeps ts ds seen']

/-- With distinct names every interface is the first of its name. -/
theorem fillImplementors_eq_map (ts : List TypeDefinition) : ∀ (ds : List Definition) (seen : List String),
    (ds.map Definition.name).Nodup → (∀ d ∈ ds, d.name ∉ seen) →
      fillImplementors ts seen ds = ds.map fun d => withImplementors (implementorsOf ts d.name) d
  | [], _, _, _ => rfl
  | d :: ds, seen, distinct, new => by
    rw [List.map_cons, List.nodup_cons] at distinct
    obtain ⟨seen', -, hs, h⟩ := fillImplementors_cons ts seen d
    have rest : ∀ d' ∈ ds, d'.name ∉ seen' := by
      intro d' hd h
      rcases List.mem_cons.1 (hs h) with h | h
      · exact distinct.1 (List.mem_map.2 ⟨d', hd, h⟩)
      · exact new d' (List.mem_cons_of_mem _ hd) h
    rw [h, if_neg (new d List.mem_cons_self), fillImplementors_eq_map ts ds seen' distinct.2 rest]
    rfl

/-- Filling in the implementors of some definitions first leaves behind their names and those seen before. -/
theorem fillImplementors_append (ts : List TypeDefinition) : ∀ (xs : List Definition) (seen : List String),
    ∃ seen', seen ⊆ seen' ∧ seen' ⊆ xs.map Definition.name ++ seen ∧ ∀ ys,
      fillImplementors ts seen (xs ++ ys) = fillImplementors ts seen xs ++ fillImplementors ts seen' ys
  | [], seen => ⟨seen, List.Subset.refl _, List.Subset.refl _, fun _ => rfl⟩
  | x :: xs, seen => by
    obtain ⟨next, kept, new, first⟩ := fillImplementors_cons ts seen x
    obtain ⟨seen', kept', new', rest⟩ := fillImplementors_append ts xs next
    refine ⟨seen', List.Subset.trans kept kept', fun n hn => ?_, fun ys => ?_⟩
    · rcases List.mem_append.1 (new' hn) with hn | hn
      · exact List.mem_cons_of_mem _ (List.mem_append_left _ hn)
      · exact List.mem_cons.2 ((List.mem_cons.1 (new hn)).imp_right (List.mem_append_right _))
    · rw [List.cons_append, first, first, rest, List.cons_append]

/-- Of the names that have been seen only those of definitions that follow matter. -/
theorem fillImplementors_congr {ts ts' : List TypeDefinition} (same : implementorsOf ts' = implementorsOf ts) :
    ∀ {ds : List Definition} {seen seen' : List String}, (∀ d ∈ ds, d.name ∈ seen' ↔ d.name ∈ seen) →
      fillImplementors ts' seen' ds = fillImplementors ts seen ds
  | [], _, _, _ => rfl
  | .interface i :: ds, seen, seen', h => by
    have rest : ∀ d ∈ ds, d.name ∈ i.name :: seen' ↔ d.name ∈ i.name :: seen := fun d hd => by
      rw [List.mem_cons, List.mem_cons, h d (List.mem_cons_of_mem _ hd)]
    have first : i.name ∈ seen' ↔ i.name ∈ seen := h (.interface i) List.mem_cons_self
    simp only [fillImplementors, same, first, fillImplementors_congr same rest]
  | .object _ :: ds, seen, seen', h | .union _ :: ds, seen, seen', h | .enum _ :: ds, seen, seen', h
  | .input _ :: ds, seen, seen', h => by
    have rest : ∀ d ∈ ds, d.name ∈ seen' ↔ d.name ∈ seen := fun d hd => h d (List.mem_cons_of_mem _ hd)
    simp only [fillImplementors, fillImplementors_congr same rest]

theorem mem_implementorsOf {interface n : String} (h : n ∈ implementorsOf ts interface) :
    ∃ is fs, .object n is fs ∈ ts := by
  obtain ⟨t, ht, hn⟩ := List.mem_flatMap.1 h
  cases t with
  | object m is fs =>
    obtain ⟨_, -, rfl⟩ := List.mem_map.1 hn
    exact ⟨is, fs, ht⟩
  | _ => cases hn

/-! ## The schema of a document -/

/-- What the type definitions of a document resolve to, before interfaces have their implementors. -/
structure Resolution (ts : List TypeDefinition) where
  results : List (Option Definition)
  steps : ts.mapM (Scope.ofTypes ts).definition = .ok results

namespace Resolution

variable (x : Resolution ts)

/-- The definitions of a resolution. -/
def definitions : List Definition := x.results.filterMap id

/-- All type definitions but those of scalars resolve to definitions, one to one and in their order. -/
theorem forall₂_resolves :
    List.Forall₂ (Resolves (Scope.ofTypes ts)) (ts.filter (·.category != .scalar)) x.definitions := by
  have walk : ∀ {us : List TypeDefinition} {os : List (Option Definition)},
      List.Forall₂ (fun t o => (Scope.ofTypes ts).definition t = .ok o) us os →
        List.Forall₂ (Resolves (Scope.ofTypes ts)) (us.filter (·.category != .scalar)) (os.filterMap id) := by
    intro us os h
    induction h with
    | nil => exact .nil
    | cons step _ ih =>
      rcases definition_resolves step with ⟨hc, rfl⟩ | ⟨hc, d, rfl, hr⟩
      · rw [List.filter_cons_of_neg (by simp [hc])]
        exact ih
      · rw [List.filter_cons_of_pos (by simp [hc])]
        exact .cons hr ih
  exact walk (mapM_eq_ok.1 x.steps)

/-- Every definition comes from a type definition. -/
theorem exists_resolves {d : Definition} (hd : d ∈ x.definitions) :
    ∃ t ∈ ts, Resolves (Scope.ofTypes ts) t d := by
  obtain ⟨i, hi, rfl⟩ := List.getElem_of_mem hd
  have ht : i < (ts.filter (·.category != .scalar)).length := by rw [x.forall₂_resolves.length_eq]; exact hi
  exact ⟨_, List.mem_of_mem_filter (List.getElem_mem ht), x.forall₂_resolves.get ht hi⟩

/-- Every type definition but that of a scalar gives a definition. -/
theorem exists_definition {t : TypeDefinition} (ht : t ∈ ts) (hc : t.category ≠ .scalar) :
    ∃ d ∈ x.definitions, Resolves (Scope.ofTypes ts) t d := by
  have hf : t ∈ ts.filter (·.category != .scalar) := List.mem_filter.2 ⟨ht, by simpa using hc⟩
  obtain ⟨i, hi, rfl⟩ := List.getElem_of_mem hf
  have hd : i < x.definitions.length := by rw [← x.forall₂_resolves.length_eq]; exact hi
  exact ⟨_, List.getElem_mem hd, x.forall₂_resolves.get hi hd⟩

/-- The names of definitions are names of type definitions, in their order. -/
theorem sublist_names : (x.definitions.map Definition.name).Sublist (ts.map TypeDefinition.name) := by
  have names : x.definitions.map Definition.name = (ts.filter (·.category != .scalar)).map TypeDefinition.name := by
    rw [← List.forall₂_eq_eq_eq, List.forall₂_map_left_iff, List.forall₂_map_right_iff]
    exact (x.forall₂_resolves.imp fun t d hr => hr.name).flip
  rw [names]
  exact List.filter_sublist.map _

/-- What can be read off a definition and off the type definition that it resolves is listed by both in one order. -/
theorem filterMap_eq {α : Type} {f : Definition → Option α} {g : TypeDefinition → Option α}
    (scalar : ∀ t : TypeDefinition, t.category = .scalar → g t = none)
    (agree : ∀ t d, Resolves (Scope.ofTypes ts) t d → f d = g t) : x.definitions.filterMap f = ts.filterMap g := by
  have kept : (ts.filter (·.category != .scalar)).filterMap g = ts.filterMap g := by
    rw [List.filterMap_filter]
    refine List.filterMap_congr fun t _ => ?_
    by_cases hc : t.category = .scalar
    · simp [hc, scalar t hc]
    · simp [hc]
  have walk : ∀ {us : List TypeDefinition} {ds : List Definition},
      List.Forall₂ (Resolves (Scope.ofTypes ts)) us ds → ds.filterMap f = us.filterMap g := by
    intro us ds h
    induction h with
    | nil => rfl
    | cons hr _ ih => rw [List.filterMap_cons, List.filterMap_cons, agree _ _ hr, ih]
  rw [walk x.forall₂_resolves, kept]

/-- The objects of a resolution with the names after their `implements` are those of the document. -/
theorem objectClauses_eq :
    (x.definitions.filterMap Definition.object?).map (fun o => (o.name, o.implements)) =
      ts.filterMap TypeDefinition.objectClause? := by
  rw [List.map_filterMap]
  refine x.filterMap_eq (fun t hc => ?_) fun t d hr => ?_
  · cases t <;> first | rfl | cases hc
  · cases d with
    | object o =>
      obtain ⟨fs, rfl⟩ := (hr.implements o rfl).1
      rfl
    | _ => cases t <;> first | rfl | cases hr.category

/-- The unions of a resolution with their members are those of the document. -/
theorem unionClauses_eq :
    (x.definitions.filterMap Definition.union?).map (fun u => (u.name, u.members)) =
      ts.filterMap TypeDefinition.unionClause? := by
  rw [List.map_filterMap]
  refine x.filterMap_eq (fun t hc => ?_) fun t d hr => ?_
  · cases t <;> first | rfl | cases hc
  · cases d with
    | union u =>
      obtain rfl := (hr.members u rfl).1
      rfl
    | _ => cases t <;> first | rfl | cases hr.category

/-- The enums of a resolution with their values are those of the document. -/
theorem enumClauses_eq :
    (x.definitions.filterMap Definition.enum?).map (fun e => (e.name, e.values)) =
      ts.filterMap TypeDefinition.enumClause? := by
  rw [List.map_filterMap]
  refine x.filterMap_eq (fun t hc => ?_) fun t d hr => ?_
  · cases t <;> first | rfl | cases hc
  · cases d with
    | enum e =>
      obtain rfl := hr.values e rfl
      rfl
    | _ => cases t <;> first | rfl | cases hr.category

/-- The objects of a resolution declare what the objects of the document declare. -/
theorem implementorsOf_eq (interface : String) : implementorsOf ts interface =
    (x.definitions.filterMap Definition.object?).flatMap fun o =>
      (o.implements.filter (· == interface)).map fun _ => o.name := by
  have clauses : ∀ us : List TypeDefinition, implementorsOf us interface =
      (us.filterMap TypeDefinition.objectClause?).flatMap fun c => (c.2.filter (· == interface)).map fun _ => c.1 := by
    intro us
    induction us with
    | nil => rfl
    | cons t us ih =>
      rw [implementorsOf, List.flatMap_cons, ← implementorsOf, ih]
      cases t <;> rfl
  rw [clauses, ← x.objectClauses_eq, List.flatMap_map]

/-- The schema that a resolution is completed to. -/
def schema (roots : Roots) : Schema := ⟨fillImplementors ts [] x.definitions, roots⟩

variable {x} {roots : Roots}

/-- Definitions of the schema are definitions of the resolution, up to implementors. -/
theorem exists_of_mem_schema {d' : Definition} (h : d' ∈ (x.schema roots).definitions) :
    ∃ d ∈ x.definitions, ∃ names, names ⊆ implementorsOf ts d.name ∧ d' = withImplementors names d := by
  obtain ⟨i, hi, rfl⟩ := List.getElem_of_mem h
  have filled := forall₂_fillImplementors ts x.definitions []
  have hx : i < x.definitions.length := by rw [filled.length_eq]; exact hi
  exact ⟨x.definitions[i], List.getElem_mem hx, filled.get hx hi⟩

/-- A name of a type definition is defined with the same category. -/
theorem defines_of_mem {t : TypeDefinition} (ht : t ∈ ts) (hc : t.category ≠ .scalar) :
    (x.schema roots).Defines t.category t.name := by
  obtain ⟨d, hd, hr⟩ := x.exists_definition ht hc
  obtain ⟨i, hi, rfl⟩ := List.getElem_of_mem hd
  have filled := forall₂_fillImplementors ts x.definitions []
  have hf : i < (fillImplementors ts [] x.definitions).length := by rw [← filled.length_eq]; exact hi
  obtain ⟨names, -, he⟩ := filled.get hi hf
  refine ⟨_, List.getElem_mem hf, ?_, ?_⟩
  · exact (congrArg Definition.name he).trans (name_withImplementors.trans hr.name)
  · exact (congrArg Definition.category he).trans (category_withImplementors.trans hr.category)

theorem defines_of_category? {name : String} {c : Category} (h : (Scope.ofTypes ts).category? name = some c)
    (hc : c ≠ .scalar) : (x.schema roots).Defines c name := by
  obtain ⟨t, ht, rfl, rfl⟩ := mem_of_category? h hc
  exact defines_of_mem ht hc

/-- Every reference of the schema has the category of its name in scope. -/
theorem sound_of_mem_references {r : TypeRef} (h : r ∈ (x.schema roots).references) :
    Sound (Scope.ofTypes ts) r := by
  obtain ⟨d', hd', hr⟩ := List.mem_flatMap.1 h
  obtain ⟨d, hd, names, -, rfl⟩ := exists_of_mem_schema hd'
  obtain ⟨t, -, resolves⟩ := x.exists_resolves hd
  exact resolves.references r (references_withImplementors ▸ hr)

theorem consistent : (x.schema roots).Consistent where
  references r hr hc := defines_of_category? (sound_of_mem_references hr) hc
  implements o ho n hn := by
    obtain ⟨d, hd, names, -, he⟩ := exists_of_mem_schema (Schema.mem_objects.1 ho)
    cases withImplementors_eq_self he.symm (by simp [Definition.category])
    obtain ⟨t, -, resolves⟩ := x.exists_resolves hd
    exact defines_of_category? ((resolves.implements o rfl).2 n hn) (by simp)
  implementors i hi n hn := by
    obtain ⟨d, hd, names, hs, he⟩ := exists_of_mem_schema (Schema.mem_interfaces.1 hi)
    rw [withImplementors_eq_interface he.symm] at hn
    obtain ⟨is, fs, ht⟩ := mem_implementorsOf (hs hn)
    exact defines_of_mem ht (by simp [TypeDefinition.category])
  members u hu n hn := by
    obtain ⟨d, hd, names, -, he⟩ := exists_of_mem_schema (Schema.mem_unions.1 hu)
    cases withImplementors_eq_self he.symm (by simp [Definition.category])
    obtain ⟨t, -, resolves⟩ := x.exists_resolves hd
    exact defines_of_category? ((resolves.members u rfl).2 n hn) (by simp)

theorem names_schema : (x.schema roots).definitions.map Definition.name = x.definitions.map Definition.name := by
  have filled := forall₂_fillImplementors ts x.definitions []
  rw [← List.forall₂_eq_eq_eq, List.forall₂_map_left_iff, List.forall₂_map_right_iff]
  refine filled.flip.imp fun d' d h => ?_
  obtain ⟨names, -, rfl⟩ := h
  exact name_withImplementors

/-- With distinct names all interfaces get their implementors. -/
theorem schema_eq_map (distinct : (x.definitions.map Definition.name).Nodup) : (x.schema roots).definitions =
    x.definitions.map fun d => withImplementors (implementorsOf ts d.name) d :=
  fillImplementors_eq_map ts _ _ distinct (fun _ _ h => by cases h)

theorem objects_eq : (x.schema roots).objects = x.definitions.filterMap Definition.object? :=
  filterMap_fillImplementors (fun _ _ => object?_withImplementors) ts _ _

theorem unions_eq : (x.schema roots).unions = x.definitions.filterMap Definition.union? :=
  filterMap_fillImplementors (fun _ _ => union?_withImplementors) ts _ _

theorem enums_eq : (x.schema roots).enums = x.definitions.filterMap Definition.enum? :=
  filterMap_fillImplementors (fun _ _ => enum?_withImplementors) ts _ _

/-- With distinct names every interface lists exactly those who declare it. -/
theorem implementors_eq_declarers (distinct : (x.definitions.map Definition.name).Nodup) {i : InterfaceType}
    (hi : i ∈ (x.schema roots).interfaces) : i.implementors = (x.schema roots).declarers i.name := by
  have objects : (x.schema roots).objects = x.definitions.filterMap Definition.object? := objects_eq
  rw [Schema.mem_interfaces, schema_eq_map distinct] at hi
  obtain ⟨d, -, he⟩ := List.mem_map.1 hi
  have name : d.name = i.name := name_withImplementors.symm.trans (congrArg Definition.name he)
  rw [withImplementors_eq_interface he, x.implementorsOf_eq, name, Schema.declarers, objects]

theorem unambiguous (distinct : (ts.map TypeDefinition.name).Nodup) : (x.schema roots).Unambiguous where
  distinct := by
    rw [names_schema]
    exact distinct.sublist x.sublist_names
  categories r hr d' hd' hn := by
    obtain ⟨d, hd, names, -, rfl⟩ := exists_of_mem_schema hd'
    obtain ⟨t, ht, resolves⟩ := x.exists_resolves hd
    rw [name_withImplementors] at hn
    have known := category?_of_mem distinct ht
    rw [← resolves.name, hn, ← resolves.category, sound_of_mem_references hr] at known
    rw [category_withImplementors]
    exact (Option.some.inj known).symm
  implementors i hi := implementors_eq_declarers (distinct.sublist x.sublist_names) hi

end Resolution

/-- The schema of a document completes a resolution. -/
theorem exists_resolution {d : Document} {s : Schema} (h : d.schema = .ok s) :
    ∃ x : Resolution d.types, s = x.schema (rootsOf d.operations) := by
  obtain ⟨results, hr, h⟩ := bind_eq_ok.1 h
  cases h
  exact ⟨⟨results, hr⟩, rfl⟩

theorem schema_consistent {d : Document} {s : Schema} (h : d.schema = .ok s) : s.Consistent := by
  obtain ⟨x, rfl⟩ := exists_resolution h
  exact x.consistent

/-- The objects of a document with the names after their `implements`. -/
def Document.objectClauses (d : Document) : List (String × List String) :=
  d.types.filterMap TypeDefinition.objectClause?

/-- The unions of a document with their members. -/
def Document.unionClauses (d : Document) : List (String × List String) :=
  d.types.filterMap TypeDefinition.unionClause?

/-- The enums of a document with their values. -/
def Document.enumClauses (d : Document) : List (String × List String) := d.types.filterMap TypeDefinition.enumClause?

theorem schema_objectClauses {d : Document} {s : Schema} (h : d.schema = .ok s) :
    s.objects.map (fun o => (o.name, o.implements)) = d.objectClauses := by
  obtain ⟨x, rfl⟩ := exists_resolution h
  rw [Resolution.objects_eq, x.objectClauses_eq]
  rfl

theorem schema_unionClauses {d : Document} {s : Schema} (h : d.schema = .ok s) :
    s.unions.map (fun u => (u.name, u.members)) = d.unionClauses := by
  obtain ⟨x, rfl⟩ := exists_resolution h
  rw [Resolution.unions_eq, x.unionClauses_eq]
  rfl

theorem schema_enumClauses {d : Document} {s : Schema} (h : d.schema = .ok s) :
    s.enums.map (fun e => (e.name, e.values)) = d.enumClauses := by
  obtain ⟨x, rfl⟩ := exists_resolution h
  rw [Resolution.enums_eq, x.enumClauses_eq]
  rfl

theorem schema_implementors {d : Document} {s : Schema} (h : d.schema = .ok s)
    (distinct : (s.definitions.map Definition.name).Nodup) {i : InterfaceType} (hi : i ∈ s.interfaces) :
    i.implementors = s.declarers i.name := by
  obtain ⟨x, rfl⟩ := exists_resolution h
  rw [Resolution.names_schema] at distinct
  exact Resolution.implementors_eq_declarers distinct hi

theorem schema_unambiguous {d : Document} {s : Schema} (h : d.schema = .ok s)
    (distinct : (d.types.map TypeDefinition.name).Nodup) : s.Unambiguous := by
  obtain ⟨x, rfl⟩ := exists_resolution h
  exact x.unambiguous distinct

end Sdl

end SchemaTypings

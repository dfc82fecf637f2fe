import SchemaTypings.Proofs.Consistency

/-!
# The first fault of a document

A document mentions types by their names: in the types of fields, arguments and input fields, after `implements`, and as
members of unions. It denotes a schema if each mention is admitted, and otherwise its fault is that of the first mention
that is not, in the order of the text.

- `Document.category?`: the category of a name is that of its last definition; a built-in scalar needs none;
- `Document.mentions`: the mentions in the order of the text, `Document.Admits` and `Document.fault?` what is right or
  wrong about one;
- `fault?_definition`, `fault?_schema`: resolution stops at the first wrong mention, of a definition and of a document;
- `map_name_references`: each mention of a type has its reference in the schema;
- `schema_core`: extensions, directive definitions and conformance between interfaces have no part in this.
-/

namespace SchemaTypings.Sdl

/-! ## Categories of names -/

/-- The category of a name: that of its last definition. A built-in scalar that is not defined is a scalar. -/
def Document.category? (d : Document) (name : String) : Option Category :=
  match (d.types.filter (·.name == name)).getLast? with
  | some t => some t.category
  | none => if name ∈ builtinScalars then some .scalar else none

/-- The entry that is found from the end of a list is the last one with its key. -/
theorem lookup_reverse_map {α β : Type} (key : α → String) (value : α → β) (k : String) : ∀ xs : List α,
    (xs.map fun x => (key x, value x)).reverse.lookup k = (xs.filter (key · == k)).getLast?.map value
  | [] => rfl
  | x :: xs => by
    rw [List.map_cons, List.reverse_cons, List.lookup_append, lookup_reverse_map key value k xs]
    by_cases hx : key x = k
    · rw [List.filter_cons_of_pos (by simpa using hx), List.getLast?_cons, hx, List.lookup_cons_self]
      cases (xs.filter (key · == k)).getLast? <;> rfl
    · have other : (k == key x) = false := beq_eq_false_iff_ne.2 fun e => hx e.symm
      rw [List.filter_cons_of_neg (by simpa using hx), List.lookup_cons, other, List.lookup_nil, Option.or_none]

theorem lookup_map_const {α : Type} (a : α) (k : String) : ∀ names : List String,
    (names.map (·, a)).lookup k = if k ∈ names then some a else none
  | [] => rfl
  | n :: names => by
    rw [List.map_cons]
    by_cases hk : k = n
    · simp [hk]
    · rw [List.lookup_cons, beq_eq_false_iff_ne.2 hk, lookup_map_const a k names]
      simp [hk]

/-- The scope of a document gives names their categories. -/
theorem category?_ofTypes (d : Document) (name : String) :
    (Scope.ofTypes d.types).category? name = d.category? name := by
  unfold Scope.category? Scope.ofTypes Document.category?
  rw [List.lookup_append, lookup_reverse_map, lookup_map_const]
  cases (d.types.filter (·.name == name)).getLast? <;> rfl

/-! ## Mentions -/

/-- A place where a type is named. -/
inductive Mention where
  /-- In the type of a field, an argument or an input field. -/
  | type (name : String)
  /-- After the `implements` of an object. -/
  | interface (name : String)
  /-- Among the members of a union. -/
  | member (name : String)
  deriving DecidableEq, Repr

/-- The name of a mention in a type. -/
def Mention.type? : Mention → Option String
  | .type n => some n
  | .interface _ | .member _ => none

/-- The mention in the type of an argument or input field. -/
def InputSyntax.mention (i : InputSyntax) : Mention := .type i.type.name

/-- The mentions of a field: in its type and then in those of its arguments. -/
def FieldSyntax.mentions (f : FieldSyntax) : List Mention := .type f.type.name :: f.arguments.map InputSyntax.mention

/-- The mentions of a type definition in the order of the text. -/
def TypeDefinition.mentions : TypeDefinition → List Mention
  | .scalar _ | .enum _ _ => []
  | .object _ is fs => is.map .interface ++ fs.flatMap FieldSyntax.mentions
  | .interface _ _ fs => fs.flatMap FieldSyntax.mentions
  | .union _ ms => ms.map .member
  | .input _ fs => fs.map InputSyntax.mention

namespace Document

variable (d : Document)

/-- All mentions of a document in the order of the text. -/
def mentions : List Mention := d.types.flatMap TypeDefinition.mentions

/-- A mention is right: in a type any name with a category will do, after `implements` that of an interface is needed,
and in a union that of an object. -/
def Admits : Mention → Prop
  | .type n => ∃ c, d.category? n = some c
  | .interface n => d.category? n = some .interface
  | .member n => d.category? n = some .object

/-- What is wrong about a name that must have a category. -/
def demandFault? (c : Category) (otherwise : Fault) (name : String) : Option Fault :=
  match d.category? name with
  | none => some (.unknownType name)
  | some c' => if c' = c then none else some otherwise

/-- What is wrong about a mention: its name has no category, or not the one that is needed. -/
def mentionFault? : Mention → Option Fault
  | .type n => if (d.category? n).isSome then none else some (.unknownType n)
  | .interface n => d.demandFault? .interface (.notAnInterface n) n
  | .member n => d.demandFault? .object (.notAnObject n) n

theorem demandFault?_eq_none {c : Category} {otherwise : Fault} {name : String} :
    d.demandFault? c otherwise name = none ↔ d.category? name = some c := by
  unfold demandFault?
  cases d.category? name <;> simp

theorem mentionFault?_eq_none {m : Mention} : d.mentionFault? m = none ↔ d.Admits m := by
  cases m with
  | type n => simp [mentionFault?, Admits, Option.isSome_iff_exists]
  | interface n => exact d.demandFault?_eq_none
  | member n => exact d.demandFault?_eq_none

end Document

/-! ## Resolution stops at the first wrong mention -/

section Faults

variable (d : Document)

theorem fault?_category (name : String) :
    fault? ((Scope.ofTypes d.types).category name) = d.mentionFault? (.type name) := by
  unfold Scope.category
  rw [category?_ofTypes]
  cases h : d.category? name <;> simp [Document.mentionFault?, fault?, h]

theorem fault?_require (c : Category) (otherwise : String → Fault) (name : String) :
    fault? ((Scope.ofTypes d.types).require c otherwise name) = d.demandFault? c (otherwise name) name := by
  unfold Scope.require Scope.category Document.demandFault?
  rw [category?_ofTypes]
  cases d.category? name with
  | none => rfl
  | some c' =>
    by_cases hc : c' = c
    · simp [hc, fault?]
    · simp [hc, fault?, throw, throwThe, MonadExceptOf.throw]

/-- Lists and exclamation marks have no fault of their own. -/
theorem fault?_typeRef (t : TypeSyntax) :
    fault? ((Scope.ofTypes d.types).typeRef t) = d.mentionFault? (.type t.name) := by
  rw [typeRef_eq, fault?_map, fault?_category]

theorem fault?_inputs (is : List InputSyntax) :
    fault? ((Scope.ofTypes d.types).inputs is) = (is.map InputSyntax.mention).findSome? d.mentionFault? := by
  have each : ∀ i : InputSyntax, fault? (do
      return (⟨i.name, ← (Scope.ofTypes d.types).typeRef i.type⟩ : Argument)) = d.mentionFault? i.mention := fun i => by
    rw [fault?_map, fault?_typeRef]
    rfl
  rw [Scope.inputs, fault?_mapM each, List.findSome?_map]
  rfl

theorem fault?_fields (fs : List FieldSyntax) :
    fault? ((Scope.ofTypes d.types).fields fs) =
      (fs.flatMap FieldSyntax.mentions).findSome? d.mentionFault? := by
  have each : ∀ f : FieldSyntax, fault? (do
      return (⟨f.name, ← (Scope.ofTypes d.types).typeRef f.type, ← (Scope.ofTypes d.types).inputs f.arguments⟩ :
        Field)) = f.mentions.findSome? d.mentionFault? := fun f => by
    rw [fault?_bind fun t _ => fault?_map _ _, fault?_typeRef, fault?_inputs, FieldSyntax.mentions,
      List.findSome?_cons]
    cases d.mentionFault? (.type f.type.name) <;> rfl
  rw [Scope.fields, fault?_mapM each, findSome?_flatMap]

/-- The fault of a definition is that of its first wrong mention. -/
theorem fault?_definition (t : TypeDefinition) :
    fault? ((Scope.ofTypes d.types).definition t) = t.mentions.findSome? d.mentionFault? := by
  cases t with
  | scalar n => rfl
  | enum n vs => rfl
  | object n is fs =>
    have clause : fault? (is.forM ((Scope.ofTypes d.types).require .interface .notAnInterface)) =
        (is.map Mention.interface).findSome? d.mentionFault? := by
      rw [fault?_forM (fault?_require d .interface .notAnInterface), List.findSome?_map]
      rfl
    rw [Scope.definition, fault?_bind fun _ _ => fault?_map _ _, clause, fault?_fields, TypeDefinition.mentions,
      List.findSome?_append]
  | interface n is fs => rw [Scope.definition, fault?_map, fault?_fields, TypeDefinition.mentions]
  | union n ms =>
    have members : fault? (ms.forM ((Scope.ofTypes d.types).require .object .notAnObject)) =
        (ms.map Mention.member).findSome? d.mentionFault? := by
      rw [fault?_forM (fault?_require d .object .notAnObject), List.findSome?_map]
      rfl
    rw [Scope.definition, fault?_map, members, TypeDefinition.mentions]
  | input n fs => rw [Scope.definition, fault?_map, fault?_inputs, TypeDefinition.mentions]

/-- The fault of a document is that of its first wrong mention. -/
theorem fault?_schema : fault? d.schema = d.mentions.findSome? d.mentionFault? := by
  rw [Document.schema, fault?_map, fault?_mapM (fault?_definition d), Document.mentions, findSome?_flatMap]

end Faults

/-! ## References -/

/-- The names that mentions have in types. -/
def typeNames (ms : List Mention) : List String := ms.filterMap Mention.type?

theorem typeNames_fields (fs : List FieldSyntax) : typeNames (fs.flatMap FieldSyntax.mentions) =
    fs.flatMap fun f => f.type.name :: f.arguments.map (·.type.name) := by
  rw [typeNames, List.filterMap_flatMap]
  refine List.flatMap_congr fun f _ => ?_
  simp [FieldSyntax.mentions, InputSyntax.mention, Mention.type?, Function.comp_def]

section References

variable {scope : Scope}

theorem name_typeRef {t : TypeSyntax} {r : TypeRef} (h : scope.typeRef t = .ok r) : r.name = t.name := by
  obtain ⟨c, -, rfl⟩ := typeRef_eq_ok.1 h
  exact t.reference_name c

theorem map_name_inputs {is : List InputSyntax} {as : List Argument} (h : scope.inputs is = .ok as) :
    as.map (·.type.name) = is.map (·.type.name) :=
  map_eq_of_mapM h fun i a ha => by
    obtain ⟨r, hr, ha⟩ := bind_eq_ok.1 ha
    cases ha
    exact name_typeRef hr

theorem map_name_fields {fs : List FieldSyntax} {fields : List Field} (h : scope.fields fs = .ok fields) :
    (fields.flatMap Field.references).map TypeRef.name = typeNames (fs.flatMap FieldSyntax.mentions) := by
  have each : fields.map (fun f => f.references.map TypeRef.name) =
      fs.map fun f => f.type.name :: f.arguments.map (·.type.name) :=
    map_eq_of_mapM h fun f field hf => by
      obtain ⟨r, hr, hf⟩ := bind_eq_ok.1 hf
      obtain ⟨as, has, hf⟩ := bind_eq_ok.1 hf
      cases hf
      simp only [Field.references, List.map_cons, List.map_map, Function.comp_def, name_typeRef hr, map_name_inputs has]
  rw [typeNames_fields, List.map_flatMap, List.flatMap_def, each, ← List.flatMap_def]

/-- The references of a definition are its mentions in types. -/
theorem map_name_definition {t : TypeDefinition} {o : Option Definition} (h : scope.definition t = .ok o) :
    (o.toList.flatMap Definition.references).map TypeRef.name = typeNames t.mentions := by
  cases t with
  | scalar n =>
    cases h
    rfl
  | enum n vs =>
    cases h
    rfl
  | object n is fs =>
    obtain ⟨⟨⟩, -, h⟩ := bind_eq_ok.1 h
    obtain ⟨fields, hf, h⟩ := bind_eq_ok.1 h
    cases h
    have none : typeNames (is.map .interface) = [] := by simp [typeNames, Mention.type?, Function.comp_def]
    rw [TypeDefinition.mentions, typeNames, List.filterMap_append, ← typeNames, ← typeNames, none, List.nil_append,
      ← map_name_fields hf]
    simp [Definition.references]
  | interface n is fs =>
    obtain ⟨fields, hf, h⟩ := bind_eq_ok.1 h
    cases h
    rw [TypeDefinition.mentions, ← map_name_fields hf]
    simp [Definition.references]
  | union n ms =>
    obtain ⟨⟨⟩, -, h⟩ := bind_eq_ok.1 h
    cases h
    simp [Definition.references, TypeDefinition.mentions, typeNames, Mention.type?, Function.comp_def]
  | input n fs =>
    obtain ⟨as, has, h⟩ := bind_eq_ok.1 h
    cases h
    have names := map_name_inputs has
    simp [Definition.references, TypeDefinition.mentions, typeNames, InputSyntax.mention, Mention.type?, names,
      Function.comp_def]

end References

/-- Filling in implementors leaves the references as they are. -/
theorem references_fillImplementors (ts : List TypeDefinition) (ds : List Definition) :
    (fillImplementors ts [] ds).flatMap Definition.references = ds.flatMap Definition.references := by
  have each : ∀ {ds ds' : List Definition},
      List.Forall₂ (fun d d' => ∃ names, names ⊆ implementorsOf ts d.name ∧ d' = withImplementors names d) ds ds' →
        ds'.flatMap Definition.references = ds.flatMap Definition.references := by
    intro ds ds' h
    induction h with
    | nil => rfl
    | cons step _ ih =>
      obtain ⟨names, -, rfl⟩ := step
      rw [List.flatMap_cons, List.flatMap_cons, references_withImplementors, ih]
  exact each (forall₂_fillImplementors ts ds [])

/-- Each mention of a document in a type has its reference in the schema, in the same order. -/
theorem map_name_references {d : Document} {s : Schema} (h : d.schema = .ok s) :
    s.references.map TypeRef.name = typeNames d.mentions := by
  obtain ⟨x, rfl⟩ := exists_resolution h
  have each : x.results.map (fun o => (o.toList.flatMap Definition.references).map TypeRef.name) =
      d.types.map fun t => typeNames t.mentions :=
    map_eq_of_mapM x.steps fun t o ho => map_name_definition ho
  have results : x.definitions.flatMap Definition.references =
      x.results.flatMap fun o => o.toList.flatMap Definition.references := by
    rw [Resolution.definitions, List.filterMap_eq_flatMap_toList, List.flatMap_assoc]
    rfl
  calc (x.schema (rootsOf d.operations)).references.map TypeRef.name
    _ = (x.definitions.flatMap Definition.references).map TypeRef.name := by
      rw [← references_fillImplementors d.types]
      rfl
    _ = (x.results.map fun o => (o.toList.flatMap Definition.references).map TypeRef.name).flatten := by
      rw [results, List.map_flatMap, List.flatMap_def]
    _ = typeNames d.mentions := by
      rw [each, Document.mentions, typeNames, List.filterMap_flatMap, List.flatMap_def]
      rfl

/-- A reference carries the category of its name. -/
theorem category?_of_mem_references {d : Document} {s : Schema} (h : d.schema = .ok s) {r : TypeRef}
    (hr : r ∈ s.references) : d.category? r.name = some r.category := by
  obtain ⟨x, rfl⟩ := exists_resolution h
  rw [← category?_ofTypes]
  exact Resolution.sound_of_mem_references hr

/-! ## What does not count -/

/-- A type definition without the conformance of an interface to others. -/
def TypeDefinition.core : TypeDefinition → TypeDefinition
  | .interface n _ fs => .interface n [] fs
  | t => t

/-- What counts of a statement: nothing of extensions and directive definitions. -/
def Statement.core? : Statement → Option Statement
  | .operations o => some (.operations o)
  | .definition t => some (.definition t.core)
  | .extension _ | .directive _ _ => none

/-- What counts of a document. -/
def Document.core (d : Document) : Document := ⟨d.statements.filterMap Statement.core?⟩

theorem types_core (d : Document) : d.core.types = d.types.map TypeDefinition.core := by
  simp only [Document.core, Document.types, List.filterMap_filterMap, List.map_filterMap]
  refine List.filterMap_congr fun s _ => ?_
  cases s <;> rfl

theorem operations_core (d : Document) : d.core.operations = d.operations := by
  simp only [Document.core, Document.operations, List.filterMap_filterMap]
  refine List.filterMap_congr fun s _ => ?_
  cases s <;> rfl

theorem ofTypes_core (ts : List TypeDefinition) : Scope.ofTypes (ts.map TypeDefinition.core) = Scope.ofTypes ts := by
  have same : ∀ t : TypeDefinition, (t.core.name, t.core.category) = (t.name, t.category) := fun t => by
    cases t <;> rfl
  simp only [Scope.ofTypes, List.map_map, Function.comp_def, same]

theorem definition_core (scope : Scope) (t : TypeDefinition) : scope.definition t.core = scope.definition t := by
  cases t <;> rfl

theorem implementorsOf_core (ts : List TypeDefinition) :
    implementorsOf (ts.map TypeDefinition.core) = implementorsOf ts := by
  funext interface
  rw [implementorsOf, List.flatMap_map]
  refine List.flatMap_congr fun t _ => ?_
  cases t <;> rfl

theorem fillImplementors_core (ts : List TypeDefinition) : ∀ (ds : List Definition) (seen : List String),
    fillImplementors (ts.map TypeDefinition.core) seen ds = fillImplementors ts seen ds
  | [], _ => rfl
  | d :: ds, seen => by
    cases d <;> simp only [fillImplementors, fillImplementors_core ts ds, implementorsOf_core]

/-- The schema of a document depends only on what counts. -/
theorem schema_core (d : Document) : d.core.schema = d.schema := by
  have loop : ∀ scope : Scope,
      (d.types.map TypeDefinition.core).mapM scope.definition = d.types.mapM scope.definition := by
    intro scope
    rw [List.mapM_map]
    congr 1
    funext t
    exact definition_core scope t
  unfold Document.schema
  simp only [types_core, operations_core, ofTypes_core, loop, fillImplementors_core]

/-! ## The outcome of resolution -/

/-- A document denotes a schema if and only if each of its mentions is admitted. Otherwise its fault is that of the
first mention that is not. The references of the schema are the mentions in types, each with the category of its name,
and the outcome is the same for all documents that agree in what counts. -/
theorem schema_outcome (d : Document) :
    ((∃ s, d.schema = .ok s) ↔ ∀ m ∈ d.mentions, d.Admits m) ∧
    (∀ f, d.schema = .error f ↔ d.mentions.findSome? d.mentionFault? = some f) ∧
    (∀ s, d.schema = .ok s → s.references.map TypeRef.name = typeNames d.mentions ∧
      ∀ r ∈ s.references, d.category? r.name = some r.category) ∧
    ∀ d' : Document, d'.core = d.core → d'.schema = d.schema := by
  refine ⟨?_, fun f => ?_, fun s h => ⟨map_name_references h, fun r hr => category?_of_mem_references h hr⟩,
    fun d' same => ?_⟩
  · rw [← fault?_eq_none, fault?_schema, List.findSome?_eq_none_iff]
    exact forall₂_congr fun m _ => d.mentionFault?_eq_none
  · rw [← fault?_eq_some, fault?_schema]
  · rw [← schema_core d', same, schema_core]

/-- What an object implements is looked at before its fields. -/
example : (Document.mk [.definition (.object "Query" ["Node"] [⟨"item", .named "Item" false, []⟩])]).schema =
    .error (.unknownType "Node") := by decide

end SchemaTypings.Sdl

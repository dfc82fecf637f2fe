import SchemaTypings.Proofs.Identifiers
import SchemaTypings.Proofs.ImportGroups
import SchemaTypings.Proofs.Outcome

/-!
# Closed units

A unit knows every name that its declarations refer to. The declarations and the imports of a unit are made by two walks
over the schema; here both are compared with one description of what is mentioned.

- `Source.identifier`: the identifier by which declarations refer to a schema name of a category;
- `Source.ShowsUnit`: an identifier stands in a part of a unit, and therefore the declarations refer to it
  (`refers_of_shows`). They refer to nothing else (`shows_of_refers`);
- `Mentions`: the declarations of an entity mention a name. Identifiers of mentions and a few fixed names are all
  that they refer to (`refers_sound`), and every mention is referred to (`refers_complete`);
- `Source.Provides`: the unit imports or declares what a mention refers to;
- `entity_units_closed`: in generated units every mention is provided for, and every identifier in type position is
  known.
-/

namespace SchemaTypings

open TypeScript

/-! ## Identifiers of schema names -/

/-- The primitive type that a built-in scalar stands for. -/
def primitive? : String → Option String
  | "ID" | "String" => some "string"
  | "Int" | "Float" => some "number"
  | "Boolean" => some "boolean"
  | _ => none

/-- Built-in scalars stand for primitive types, and others do not. -/
theorem primitive?_eq_none {name : String} : primitive? name = none ↔ name ∉ Sdl.builtinScalars := by
  unfold primitive?
  split <;> simp_all [Sdl.builtinScalars]

/-- The identifier of the values of a scalar. -/
def ModelMap.scalarName (m : ModelMap) (name : String) : String :=
  match primitive? name with
  | some i => i
  | none =>
    match m.lookup name with
    | .external model => model.typeName
    | .enumBacked | .unmapped => "any"

/-- The identifier of an object is that of its model or a global. -/
theorem ModelMap.valueName_cases (m : ModelMap) (roots : Roots) (name : String) : m.valueName roots name ∈ globals ∨
    ∃ model, m.objectModel? roots name = some model ∧ m.valueName roots name = model.typeName := by
  unfold ModelMap.valueName
  cases hm : m.objectModel? roots name with
  | none => exact .inl (by decide)
  | some model => exact .inr ⟨model, rfl, rfl⟩

/-- The identifier of a scalar is a global, unless the scalar is not built in and has a model. -/
theorem ModelMap.scalarName_cases (m : ModelMap) (name : String) : m.scalarName name ∈ globals ∨
    (name ∉ Sdl.builtinScalars ∧ ∃ model, m.lookup name = .external model ∧ m.scalarName name = model.typeName) := by
  unfold ModelMap.scalarName
  cases hp : primitive? name with
  | some i =>
    have global : i ∈ globals := by
      unfold primitive? at hp
      split at hp <;> cases hp <;> decide
    exact .inl global
  | none =>
    have custom : name ∉ Sdl.builtinScalars := primitive?_eq_none.1 hp
    cases hm : m.lookup name with
    | external model => exact .inr ⟨custom, model, rfl, rfl⟩
    | enumBacked => exact .inl (by decide)
    | unmapped => exact .inl (by decide)

namespace Source

variable (src : Source)

/-- The identifier that stands for a schema name of a category. -/
def identifier : Category → String → String
  | .object, name => src.models.valueName src.schema.roots name
  | .scalar, name => src.models.scalarName name
  | .enum, name | .input, name | .interface, name | .union, name => name

/-- The identifier of the context type. -/
def contextName : String :=
  match src.context with
  | some c => c.typeName
  | none => contextPlaceholder

/-- An identifier stands for one of several objects, or for there being none. -/
def ShowsSome (P : ObjectType → Prop) (i : String) : Prop :=
  (∃ o, P o ∧ i = src.identifier .object o.name) ∨ ((∀ o, ¬P o) ∧ i = "never")

/-- An identifier stands for the name of a type reference: for the name itself, for one of the objects behind it, or for
there being none. -/
def ShowsNamed (X : Expansion) (r : TypeRef) (i : String) : Prop :=
  (∃ n k, StandsFor X r n k ∧ i = src.identifier k n) ∨ ((∀ n k, ¬StandsFor X r n k) ∧ i = "never")

/-- An identifier stands for a type reference: for its name or for its modifiers. -/
def Shows (X : Expansion) (r : TypeRef) (i : String) : Prop :=
  src.ShowsNamed X r i ∨ ((r.innerNullable = true ∨ .nullable ∈ r.layers) ∧ i = "null") ∨
    (r.layers ≠ [] ∧ i = "Array")

theorem Shows.of_standsFor {src : Source} {X : Expansion} {r : TypeRef} {n : String} {k : Category}
    (h : StandsFor X r n k) : src.Shows X r (src.identifier k n) := .inl (.inl ⟨n, k, h, rfl⟩)

/-- An object is an entity or stands behind it. -/
def Own (X : Expansion) (e : Entity) (o : ObjectType) : Prop := e = .object o ∨ X e.definition.category e.name o

/-- An identifier stands for one of the values of an entity. -/
def ShowsOwn (X : Expansion) (e : Entity) (i : String) : Prop := src.ShowsSome (Own X e) i

/-- An identifier stands in the member of an aggregate that tells types apart. -/
def ShowsCheck (X : Expansion) : Entity → String → Prop
  | .object o, i => (∃ b, src.schema.Possible X o b) ∧
      (i = isTypeOf ∨ i = src.contextName ∨ src.ShowsSome (src.schema.Possible X o) i)
  | e, i => i = resolveInfo ∨ i = src.contextName ∨ i = "Promise" ∨ src.ShowsOwn X e i

end Source

/-! ## Types refer to what they stand for -/

section Types

variable {src : Source} {a : Associations}

theorem contextType_eq : src.contextType = .ident src.contextName := by
  unfold Source.contextType Source.contextName
  cases src.context <;> rfl

theorem scalarType_eq (name : String) : (src.projection a).scalarType name = .ident (src.identifier .scalar name) := by
  show _ = TypeExpr.ident (src.models.scalarName name)
  unfold Projection.scalarType ModelMap.scalarName
  dsimp only [Source.projection]
  split
  case h_6 =>
    have custom : primitive? name = none := by
      unfold primitive?
      split <;> simp_all
    rw [custom]
    dsimp only
    cases src.models.lookup name <;> rfl
  all_goals rfl

theorem objectType_eq {name : String} {t : TypeExpr} (h : (src.projection a).objectType name = .ok t) :
    t = .ident (src.identifier .object name) :=
  (objectType_eq_ok h).2

/-- A union of the types of objects that are looked up one by one. -/
theorem objectUnion_uses {α : Type} {name : α → String} {xs : List α} {ts : List TypeExpr}
    (h : List.Forall₂ (fun x t => (src.projection a).objectType (name x) = .ok t) xs ts) :
    Uses (.union ts) (fun i => (∃ x ∈ xs, i = src.identifier .object (name x)) ∨ (xs = [] ∧ i = "never")) := by
  refine Uses.union (h.imp fun x t ht => ?_)
  rw [objectType_eq ht]
  exact ⟨Uses.ident _, List.cons_ne_nil _ _⟩

theorem objectTypes_uses {os : List ObjectType} {t : TypeExpr} (h : (src.projection a).objectTypes os = .ok t) :
    Uses t (src.ShowsSome (· ∈ os)) := by
  obtain ⟨ts, hts, h⟩ := bind_eq_ok.1 h
  cases h
  exact (objectUnion_uses (mapM_eq_ok.1 hts)).congr fun i => by
    rw [Source.ShowsSome, ← List.eq_nil_iff_forall_not_mem]

/-- The type of an abstract name refers to the objects behind it. -/
theorem behind_uses {c : Category} {name : String} {t : TypeExpr}
    (h : ((src.projection a).associations.objectsBehind c name >>= (src.projection a).objectTypes) = .ok t) :
    Uses t (src.ShowsSome (a.Expands c name)) := by
  obtain ⟨os, hos, h⟩ := bind_eq_ok.1 h
  refine (objectTypes_uses h).congr fun i => ?_
  simp only [Source.ShowsSome, expands_iff (show a.objectsBehind c name = .ok os from hos)]

theorem namedType_uses {r : TypeRef} {t : TypeExpr} (h : (src.projection a).namedType r.name r.category = .ok t) :
    Uses t (src.ShowsNamed a.Expands r) := by
  have concrete : r.category.isAbstract = false → t = .ident (src.identifier r.category r.name) →
      Uses t (src.ShowsNamed a.Expands r) := by
    rintro hc rfl
    have itself : StandsFor a.Expands r r.name r.category := .inl ⟨hc, rfl, rfl⟩
    refine (Uses.ident _).congr fun i => ⟨fun hi => .inl ⟨r.name, r.category, itself, hi⟩, ?_⟩
    rintro (⟨n, k, ⟨-, rfl, rfl⟩ | ⟨rfl, o, ho, rfl⟩, hi⟩ | ⟨nothing, -⟩)
    · exact hi
    · rw [isAbstract_of_expands ho] at hc
      cases hc
    · exact absurd itself (nothing _ _)
  have behind : r.category.isAbstract = true →
      ((src.projection a).associations.objectsBehind r.category r.name >>= (src.projection a).objectTypes) = .ok t →
      Uses t (src.ShowsNamed a.Expands r) := by
    intro hc h
    have standsFor : ∀ n k, StandsFor a.Expands r n k ↔ k = .object ∧ ∃ o, a.Expands r.category r.name o ∧ o.name = n :=
      fun n k => by simp [StandsFor, hc]
    refine (behind_uses h).congr fun i => ?_
    simp only [Source.ShowsSome, Source.ShowsNamed, standsFor]
    constructor
    · rintro (⟨o, ho, hi⟩ | ⟨nothing, hi⟩)
      · exact .inl ⟨o.name, .object, ⟨rfl, o, ho, rfl⟩, hi⟩
      · exact .inr ⟨fun n k ⟨_, o, ho, _⟩ => nothing o ho, hi⟩
    · rintro (⟨n, k, ⟨rfl, o, ho, rfl⟩, hi⟩ | ⟨nothing, hi⟩)
      · exact .inl ⟨o, ho, hi⟩
      · exact .inr ⟨fun o ho => nothing o.name .object ⟨rfl, o, ho, rfl⟩, hi⟩
  cases hk : r.category with
  | scalar =>
    rw [hk] at h
    cases h
    exact concrete (by rw [hk]; rfl) (by rw [hk, scalarType_eq])
  | object =>
    rw [hk] at h
    exact concrete (by rw [hk]; rfl) (by rw [hk]; exact objectType_eq h)
  | enum =>
    rw [hk] at h
    cases h
    exact concrete (by rw [hk]; rfl) (by rw [hk]; rfl)
  | input =>
    rw [hk] at h
    cases h
    exact concrete (by rw [hk]; rfl) (by rw [hk]; rfl)
  | interface =>
    rw [hk] at h
    exact behind (by rw [hk]; rfl) (by rw [hk]; exact h)
  | union =>
    rw [hk] at h
    exact behind (by rw [hk]; rfl) (by rw [hk]; exact h)

theorem or_null_uses {t : TypeExpr} {P : String → Prop} (h : Uses t P) :
    Uses (t.or .null) (fun i => P i ∨ i = "null") :=
  h.or (Uses.ident "null") (List.cons_ne_nil _ _)

/-- Lists add the global for lists, and where they are nullable also `null`. -/
theorem wrapped_uses : ∀ (layers : List ListLayer) {t : TypeExpr} {P : String → Prop}, Uses t P →
    Uses (layers.foldl Projection.wrap t)
      (fun i => P i ∨ (.nullable ∈ layers ∧ i = "null") ∨ (layers ≠ [] ∧ i = "Array"))
  | [], t, P, h => h.congr fun i => by simp
  | .nonNull :: layers, t, P, h => (wrapped_uses layers (h.generic "Array")).congr fun i => by
    simp
    tauto
  | .nullable :: layers, t, P, h => (wrapped_uses layers (or_null_uses (h.generic "Array"))).congr fun i => by
    simp
    tauto

/-- Modifiers add globals and nothing else. -/
theorem modified_uses {t : TypeExpr} {P : String → Prop} (h : Uses t P) (r : TypeRef) :
    Uses (Projection.modified t r) fun i =>
      P i ∨ ((r.innerNullable = true ∨ .nullable ∈ r.layers) ∧ i = "null") ∨ (r.layers ≠ [] ∧ i = "Array") := by
  unfold Projection.modified
  split
  case isTrue nullable =>
    exact (wrapped_uses r.layers (or_null_uses h)).congr fun i => by
      simp only [nullable, true_or, true_and]
      tauto
  case isFalse nonNull =>
    exact (wrapped_uses r.layers h).congr fun i => by rw [or_iff_right nonNull]

theorem project_uses {r : TypeRef} {t : TypeExpr} (h : (src.projection a).project r = .ok t) :
    Uses t (src.Shows a.Expands r) := by
  obtain ⟨named, hn, h⟩ := bind_eq_ok.1 h
  cases h
  exact modified_uses (namedType_uses hn) r

theorem inputMembers_uses {as : List Argument} {ms : List (Member TypeExpr)}
    (h : (src.projection a).inputMembers as = .ok ms) :
    Uses (.object ms) (fun i => ∃ b ∈ as, src.Shows a.Expands b.type i) :=
  Uses.object ((forall₂_inputMembers h).imp fun _ _ hm => project_uses hm.1)

/-- The values of an interface or union are those of the objects behind it. -/
theorem showsOwn_iff {e : Entity} (abstract : ∀ o, e ≠ .object o) {os : List ObjectType}
    (hos : a.objectsBehind e.definition.category e.name = .ok os) {i : String} :
    src.ShowsOwn a.Expands e i ↔ src.ShowsSome (· ∈ os) i := by
  simp only [Source.ShowsOwn, Source.ShowsSome, Source.Own, abstract, false_or, expands_iff hos]

theorem entityType_uses {e : Entity} {t : TypeExpr} (h : (src.projection a).entityType e = .ok t) :
    Uses t (src.ShowsOwn a.Expands e) := by
  cases e with
  | object o =>
    cases objectType_eq h
    refine (Uses.ident _).congr fun i => ⟨fun hi => .inl ⟨o, .inl rfl, hi⟩, ?_⟩
    rintro (⟨o', ho | ho, hi⟩ | ⟨none, -⟩)
    · cases ho
      exact hi
    · cases isAbstract_of_expands ho
    · exact absurd (.inl rfl) (none o)
  | interface i =>
    obtain ⟨os, hos, h⟩ := bind_eq_ok.1 h
    exact (objectTypes_uses h).congr fun n => (showsOwn_iff (e := .interface i) nofun hos).symm
  | union u =>
    obtain ⟨os, hos, h⟩ := bind_eq_ok.1 h
    exact (objectTypes_uses h).congr fun n => (showsOwn_iff (e := .union u) nofun hos).symm

theorem maybePromise_uses {t : TypeExpr} {P : String → Prop} (h : Uses t P) :
    Uses (maybePromise t) (fun i => P i ∨ i = "Promise") :=
  (h.or (h.generic "Promise") (List.cons_ne_nil _ _)).congr fun i => by tauto

/-! ## Declarations refer to what is mentioned -/

/-- An identifier stands in the resolver of a field. -/
def Source.ShowsResolver (src : Source) (X : Expansion) (e : Entity) (f : Field) (i : String) : Prop :=
  src.ShowsOwn X e i ∨ (f.arguments ≠ [] ∧ i = f.argumentsName) ∨ i = src.contextName ∨ i = resolveInfo ∨
    src.Shows X f.type i ∨ i = "Promise" ∨ i = if e.isSubscription src.schema.roots then "AsyncIterator" else "string"

theorem argumentsType_uses (f : Field) :
    Uses (ResolverParams.argumentsType f) (fun i => f.arguments ≠ [] ∧ i = f.argumentsName) := by
  unfold ResolverParams.argumentsType
  cases h : f.arguments with
  | nil => exact Uses.nil.congr fun i => by simp
  | cons b bs => exact (Uses.ident _).congr fun i => by simp

theorem function_uses {f : Field} {parent context result : TypeExpr} {P C Q : String → Prop}
    (hp : Uses parent P) (hc : Uses context C) (hr : Uses result Q) :
    Uses (ResolverParams.function ⟨parent, context⟩ f result)
      (fun i => P i ∨ (f.arguments ≠ [] ∧ i = f.argumentsName) ∨ C i ∨ i = resolveInfo ∨ Q i) := by
  have args : Uses (Member.required "args" (ResolverParams.argumentsType f)).value
      (fun i => f.arguments ≠ [] ∧ i = f.argumentsName) := argumentsType_uses f
  have info : Uses (Member.required "info" (TypeExpr.ident resolveInfo)).value (· = resolveInfo) := Uses.ident _
  have parameters := Uses.cons (m := .required "parent" parent) hp
    (Uses.cons args (Uses.cons (m := .required "context" context) hc (Uses.cons info Uses.nil)))
  exact (Uses.function parameters hr).congr fun i => by simp only [or_false, or_assoc]

theorem resolverAlias_uses {e : Entity} {f : Field} {parent : TypeExpr} {x : TypeAlias}
    (hp : Uses parent (src.ShowsOwn a.Expands e))
    (h : (src.projection a).resolverAlias ⟨parent, src.contextType⟩ e f = .ok x) :
    Uses x.type (src.ShowsResolver a.Expands e f) := by
  obtain ⟨t, ht, h⟩ := bind_eq_ok.1 h
  cases h
  have value : Uses t (src.Shows a.Expands f.type) := project_uses ht
  have context : Uses src.contextType (· = src.contextName) := contextType_eq ▸ Uses.ident _
  have resolve := function_uses (f := f) hp context (maybePromise_uses value)
  show Uses (if e.isSubscription src.schema.roots then _ else _) _
  unfold Source.ShowsResolver
  split
  · have subscribe := function_uses (f := f) hp context (maybePromise_uses (value.generic "AsyncIterator"))
    have members := Uses.cons (m := .required "subscribe" _) subscribe
      (Uses.cons (m := ⟨"resolve", _, true⟩) resolve Uses.nil)
    exact members.congr fun i => by tauto
  · have fragment : Uses (Member.required "fragment" (TypeExpr.ident "string")).value (· = "string") := Uses.ident _
    have record := Uses.cons fragment (Uses.cons (m := .required "resolve" _) resolve Uses.nil)
    exact (resolve.or record (List.cons_ne_nil _ _)).congr fun i => by tauto

theorem resolveTypeFunction_uses {values : TypeExpr} {os : List ObjectType}
    (h : Uses values (src.ShowsSome (· ∈ os))) : Uses (resolveTypeFunction src.contextType values os)
      (fun i => i = resolveInfo ∨ i = src.contextName ∨ i = "Promise" ∨ src.ShowsSome (· ∈ os) i) := by
  have context : Uses (Member.required "context" src.contextType).value (· = src.contextName) :=
    contextType_eq ▸ Uses.ident _
  have info : Uses (Member.required "info" (TypeExpr.ident resolveInfo)).value (· = resolveInfo) := Uses.ident _
  have parameters := Uses.cons (m := .required "value" values) h (Uses.cons context (Uses.cons info Uses.nil))
  have names : Uses (TypeExpr.union (os.map fun o => TypeExpr.literal o.name)) (fun i => os = [] ∧ i = "never") := by
    have literals : List.Forall₂ (fun (_ : ObjectType) t => Uses t (fun _ => False) ∧ t.alternatives ≠ []) os
        (os.map fun o => TypeExpr.literal o.name) := by
      rw [List.forall₂_map_right_iff, List.forall₂_same]
      exact fun o _ => ⟨Uses.literal o.name, List.cons_ne_nil _ _⟩
    exact (Uses.union literals).congr fun i => by simp
  refine (Uses.function parameters (maybePromise_uses names)).congr fun i => ?_
  -- without objects there are neither values nor names of them
  have nothing : os = [] ∧ i = "never" → src.ShowsSome (· ∈ os) i := by
    rintro ⟨rfl, never⟩
    exact .inr ⟨fun _ => List.not_mem_nil, never⟩
  tauto

/-- The member of an aggregate that tells the objects behind an interface or union apart. -/
theorem resolveType_uses {e : Entity} (abstract : ∀ o, e ≠ .object o) {os : List ObjectType}
    (hos : a.objectsBehind e.definition.category e.name = .ok os) {values : TypeExpr}
    (hv : (src.projection a).objectTypes os = .ok values) (optional : Bool) :
    Uses (.object [⟨"__resolveType", resolveTypeFunction src.contextType values os, optional⟩])
      (fun i => i = resolveInfo ∨ i = src.contextName ∨ i = "Promise" ∨ src.ShowsOwn a.Expands e i) := by
  have function := resolveTypeFunction_uses (objectTypes_uses hv)
  refine (Uses.cons (m := ⟨"__resolveType", _, optional⟩) function Uses.nil).congr fun i => ?_
  rw [showsOwn_iff abstract hos, or_false]

theorem typeMembers_uses (c : src.schema.Consistent) (t : Tables src.schema a) {e : Entity}
    (he : e ∈ src.schema.entities) {ms : List (Member TypeExpr)}
    (h : (src.projection a).typeMembers src.contextType e = .ok ms) :
    Uses (.object ms) (src.ShowsCheck a.Expands e) := by
  cases e with
  | object o =>
    have ho : o ∈ src.schema.objects := Schema.mem_objects.2 (Schema.mem_entities.1 he)
    obtain ⟨ns, hns, -, possible⟩ := possibleTypes_eq t ho (c.implements o ho)
    obtain ⟨ns', hns', h⟩ := bind_eq_ok.1 h
    cases hns.symm.trans hns'
    cases ns with
    | nil =>
      cases h
      have none : ∀ b, ¬src.schema.Possible a.Expands o b := fun b hb => by
        have := (possible b.name).2 ⟨b, hb, rfl⟩
        cases this
      exact Uses.nil.congr fun i => by simp [Source.ShowsCheck, none]
    | cons n ns =>
      obtain ⟨values, hv, h⟩ := bind_eq_ok.1 h
      cases h
      have check := Uses.applied isTypeOf (objectUnion_uses (mapM_eq_ok.1 hv))
        (show Uses src.contextType (· = src.contextName) from contextType_eq ▸ Uses.ident _)
      refine (Uses.cons (m := ⟨"__isTypeOf", _, true⟩) check Uses.nil).congr fun i => ?_
      have some : ∃ b, src.schema.Possible a.Expands o b := by
        obtain ⟨b, hb, -⟩ := (possible n).1 List.mem_cons_self
        exact ⟨b, hb⟩
      have shown : (∃ m ∈ n :: ns, i = src.identifier .object m) ↔
          ∃ b, src.schema.Possible a.Expands o b ∧ i = src.identifier .object b.name := by
        constructor
        · rintro ⟨m, hm, hi⟩
          obtain ⟨b, hb, rfl⟩ := (possible m).1 hm
          exact ⟨b, hb, hi⟩
        · rintro ⟨b, hb, hi⟩
          exact ⟨b.name, (possible b.name).2 ⟨b, hb, rfl⟩, hi⟩
      have nothing : ¬∀ b, ¬src.schema.Possible a.Expands o b := fun none => some.elim none
      simp only [Source.ShowsCheck, Source.ShowsSome, shown, some, nothing, List.cons_ne_nil, false_and, or_false,
        true_and]
      exact or_congr_right or_comm
  | interface i =>
    obtain ⟨os, hos, h⟩ := bind_eq_ok.1 h
    obtain ⟨values, hv, h⟩ := bind_eq_ok.1 h
    cases h
    exact resolveType_uses (e := .interface i) nofun hos hv false
  | union u =>
    obtain ⟨os, hos, h⟩ := bind_eq_ok.1 h
    obtain ⟨values, hv, h⟩ := bind_eq_ok.1 h
    cases h
    exact resolveType_uses (e := .union u) nofun hos hv true

end Types

/-! ## Mentions -/

/-- The declarations of an entity mention a schema name of a category: for its own values, in the types of its fields,
of their arguments and of the input types that it leads to, and in its type-of check. -/
inductive Mentions (X : Expansion) (s : Schema) (e : Entity) : String → Category → Prop
  | own {o} : Source.Own X e o → e.fields ≠ [] ∨ e.definition.category.isAbstract = true → Mentions X s e o.name .object
  | type {f n k} : f ∈ e.fields → StandsFor X f.type n k → Mentions X s e n k
  | argument {f b n k} : f ∈ e.fields → b ∈ f.arguments → StandsFor X b.type n k → Mentions X s e n k
  | inputField {m i b n k} : s.Leads e m → s.input? m = some i → b ∈ i.fields → StandsFor X b.type n k →
      Mentions X s e n k
  | possible {o b} : e = .object o → s.Possible X o b → Mentions X s e b.name .object

/-- Types of fields are no input types, and arguments and input fields have scalar, enum or input types. -/
structure Schema.Placed (s : Schema) : Prop where
  fields : ∀ e ∈ s.entities, ∀ f ∈ e.fields, f.type.category ≠ .input
  arguments : ∀ e ∈ s.entities, ∀ f ∈ e.fields, ∀ b ∈ f.arguments, b.type.category ∈ [.scalar, .enum, .input]
  inputFields : ∀ i ∈ s.inputs, ∀ b ∈ i.fields, b.type.category ∈ [.scalar, .enum, .input]

/-- A type that may stand in an argument stands for its own name. -/
theorem standsFor_iff_of_input {a : Associations} {r : TypeRef} (hc : r.category ∈ [.scalar, .enum, .input])
    {n : String}
    {k : Category} : StandsFor a.Expands r n k ↔ r.name = n ∧ r.category = k := by
  have concrete : r.category.isAbstract = false := by
    revert hc
    cases r.category <;> decide
  constructor
  · rintro (⟨-, h⟩ | ⟨-, o, ho, -⟩)
    · exact h
    · rw [isAbstract_of_expands ho] at concrete
      cases concrete
  · exact fun h => .inl ⟨concrete, h⟩

section Mentions

variable {src : Source} {a : Associations} {e : Entity} {x : EntityParts (src.projection a) src.contextType e}

/-- The kinds of declarations in the unit of an entity. -/
theorem mem_declarations {d : Declaration} : d ∈ (x.assemble src.switches).declarations ↔
    (∃ i ∈ x.inputInterfaces, d = .interface i) ∨ (∃ i ∈ x.argumentInterfaces, d = .interface i) ∨
      (∃ r ∈ x.resolvers, d = .alias r) ∨ d = .interface x.aggregate ∨
        ∃ k, (src.projection a).entityDefaults? src.switches e = some k ∧ d = .constant k := by
  simp only [EntityParts.assemble, List.mem_append, List.mem_map, List.mem_singleton, Option.mem_toList, or_assoc,
    eq_comm]

/-- The interfaces of input types, each with its members. -/
theorem inputInterface_uses {i : InputType} {d : Interface} (h : (src.projection a).inputInterface i = .ok d) :
    d.parent = none ∧ Uses (.object d.members) (fun n => ∃ b ∈ i.fields, src.Shows a.Expands b.type n) := by
  obtain ⟨ms, hms, h⟩ := bind_eq_ok.1 h
  cases h
  exact ⟨rfl, inputMembers_uses hms⟩

theorem argumentsInterface_uses {f : Field} {d : Interface} (h : (src.projection a).argumentsInterface f = .ok d) :
    d.parent = none ∧ Uses (.object d.members) (fun n => ∃ b ∈ f.arguments, src.Shows a.Expands b.type n) := by
  obtain ⟨ms, hms, h⟩ := bind_eq_ok.1 h
  cases h
  exact ⟨rfl, inputMembers_uses hms⟩

/-- A default resolver is an arrow function that takes the model and reads the property of its field. -/
theorem annotation_defaultResolver (m : Model) (f : Field) : Annotation f.name (m.defaultResolver f) m.typeName := by
  let property := "parent" ++ "." ++ f.name
  let body := if f.type.isNullable then "(" ++ property ++ " === undefined ? null : " ++ property ++ ")" else property
  have parameter : ':' ∉ "parent".toList := by decide
  refine ⟨⟨"parent", m.typeName, body⟩, rfl, rfl, parameter, .inl ?_⟩
  show body = _ ∨ body = _
  unfold body
  split
  · exact .inr rfl
  · exact .inl rfl

/-- The default resolvers of an object with fields refer to its model. -/
theorem defaults_refer {k : Constant} (h : (src.projection a).entityDefaults? src.switches e = some k) {n : String}
    (hn : k.Annotates n) : ∃ o, e = .object o ∧ o.fields ≠ [] ∧ n = src.identifier .object o.name := by
  cases e with
  | object o =>
    obtain ⟨m, hm, h⟩ := Option.bind_eq_some_iff.1 h
    have identifier : src.identifier .object o.name = m.typeName := by
      show src.models.valueName src.schema.roots o.name = m.typeName
      unfold ModelMap.valueName
      rw [show src.models.objectModel? src.schema.roots o.name = some m from hm]
    split at h
    · unfold defaultResolvers? at h
      split at h
      · cases h
      · cases h
        obtain ⟨entry, he, annotates⟩ := hn
        obtain ⟨f, hf, rfl⟩ := List.mem_map.1 he
        have fields : o.fields ≠ [] := List.ne_nil_of_mem (List.mem_of_mem_filter hf)
        exact ⟨o, rfl, fields, identifier ▸ annotation_unique annotates (annotation_defaultResolver m f)⟩
    · cases h
  | interface i => cases h
  | union u => cases h

/-- An identifier stands in a part of the unit of an entity: in an input type that it leads to, in the arguments or the
resolver of a field, or in the aggregate. -/
inductive Source.ShowsUnit (src : Source) (X : Expansion) (e : Entity) : String → Prop
  | inputField {m i b n} : src.schema.Leads e m → src.schema.input? m = some i → b ∈ i.fields → src.Shows X b.type n →
      ShowsUnit src X e n
  | argument {f b n} : f ∈ e.fields → b ∈ f.arguments → src.Shows X b.type n → ShowsUnit src X e n
  | resolver {f n} : f ∈ e.fields → src.ShowsResolver X e f n → ShowsUnit src X e n
  | member {f} : f ∈ e.fields → ShowsUnit src X e f.resolverName
  | check {n} : src.ShowsCheck X e n → ShowsUnit src X e n

/-- Where an identifier in the declarations of an entity comes from. -/
inductive Explained (x : EntityParts (src.projection a) src.contextType e) : String → Prop
  | global {n} : n ∈ globals → Explained x n
  | library : Explained x resolveInfo
  | typeOf : (x.assemble src.switches).hasTypeOf = true → Explained x isTypeOf
  | context : Explained x src.contextName
  | declared {n} : n ∈ (x.assemble src.switches).declarations.map Declaration.name → Explained x n
  | mention {n k} : Mentions a.Expands src.schema e n k → Explained x (src.identifier k n)

theorem Explained.of_shows {r : TypeRef} {n : String} (mentioned : ∀ m k, StandsFor a.Expands r m k →
    Mentions a.Expands src.schema e m k) (h : src.Shows a.Expands r n) : Explained x n := by
  rcases h with (⟨m, k, hr, rfl⟩ | ⟨-, rfl⟩) | ⟨-, rfl⟩ | ⟨-, rfl⟩
  · exact .mention (mentioned m k hr)
  all_goals exact .global (by decide)

theorem Explained.of_showsSome {P : ObjectType → Prop} {n : String}
    (mentioned : ∀ o, P o → Mentions a.Expands src.schema e o.name .object) (h : src.ShowsSome P n) :
    Explained x n := by
  rcases h with ⟨o, ho, rfl⟩ | ⟨-, rfl⟩
  · exact .mention (mentioned o ho)
  · exact .global (by decide)

theorem Explained.cases {n : String} (h : Explained x n) :
    n ∈ globals ∨ n ∈ [resolveInfo, isTypeOf, src.contextName] ∨
      n ∈ (x.assemble src.switches).declarations.map Declaration.name ∨
        ∃ m k, Mentions a.Expands src.schema e m k ∧ n = src.identifier k m := by
  cases h with
  | global h => exact .inl h
  | library => exact .inr (.inl (by simp))
  | typeOf _ => exact .inr (.inl (by simp))
  | context => exact .inr (.inl (by simp))
  | declared h => exact .inr (.inr (.inl h))
  | mention h => exact .inr (.inr (.inr ⟨_, _, h, rfl⟩))

theorem argumentsName_declared {f : Field} (hf : f ∈ e.fields) (some : f.arguments ≠ []) :
    f.argumentsName ∈ (x.assemble src.switches).declarations.map Declaration.name := by
  have filtered : f ∈ e.fields.filter fun f => !f.arguments.isEmpty :=
    List.mem_filter.2 ⟨hf, by simpa using some⟩
  rw [x.names_assemble]
  exact List.mem_append_right _ (List.mem_append_left _ (List.mem_map_of_mem filtered))

theorem resolverName_declared {f : Field} (hf : f ∈ e.fields) :
    f.resolverName ∈ (x.assemble src.switches).declarations.map Declaration.name := by
  rw [x.names_assemble]
  exact List.mem_append_right _ (List.mem_append_right _ (List.mem_append_left _ (List.mem_map_of_mem hf)))

variable (c : src.schema.Consistent) (t : Tables src.schema a) (he : e ∈ src.schema.entities)

include t he

/-- The input types of a unit are those that its entity leads to. -/
theorem mem_inputs_iff {i : InputType} :
    i ∈ x.inputs ↔ src.schema.Leads e i.name ∧ src.schema.input? i.name = some i := by
  obtain ⟨is, his, -, known, mem⟩ := inputTypes_eq (p := src.projection a) t he
  cases his.symm.trans x.inputs_eq
  constructor
  · exact fun hi => ⟨(mem i.name).1 (List.mem_map_of_mem hi), known i hi⟩
  · rintro ⟨hl, hi⟩
    obtain ⟨j, hj, name⟩ := List.mem_map.1 ((mem i.name).2 hl)
    have found := known j hj
    rw [name, hi] at found
    cases found
    exact hj

include c

/-- Whatever a declaration refers to is shown in some part of the unit. -/
theorem shows_of_refers {d : Declaration} (hd : d ∈ (x.assemble src.switches).declarations) {n : String}
    (hn : d.Refers n) : src.ShowsUnit a.Expands e n := by
  -- input types, arguments, resolvers, the aggregate, the default resolvers
  rcases mem_declarations.1 hd with ⟨i, hi, rfl⟩ | ⟨i, hi, rfl⟩ | ⟨r, hr, rfl⟩ | rfl | ⟨k, hk, rfl⟩
  · obtain ⟨input, hin, hi⟩ := exists_of_mem_mapM x.inputInterfaces_eq hi
    obtain ⟨parent, uses⟩ := inputInterface_uses hi
    obtain ⟨hl, known⟩ := (mem_inputs_iff t he).1 hin
    obtain ⟨b, hb, hs⟩ := (uses n).1 ((refers_interface parent).1 hn)
    exact .inputField hl known hb hs
  · obtain ⟨f, hf, hi⟩ := exists_of_mem_mapM x.argumentInterfaces_eq hi
    obtain ⟨parent, uses⟩ := argumentsInterface_uses hi
    obtain ⟨b, hb, hs⟩ := (uses n).1 ((refers_interface parent).1 hn)
    exact .argument (List.mem_of_mem_filter hf) hb hs
  · obtain ⟨f, hf, hr⟩ := exists_of_mem_mapM x.resolvers_eq hr
    exact .resolver hf ((resolverAlias_uses (entityType_uses x.parent_eq) hr n).1 hn)
  · obtain ⟨m, hm, hn⟩ := TypeExpr.mem_identifiers_object.1 ((refers_interface rfl).1 hn)
    rcases List.mem_append.1 hm with hm | hm
    · obtain ⟨f, hf, rfl⟩ := List.mem_map.1 hm
      obtain rfl := (Uses.ident f.resolverName n).1 hn
      exact .member hf
    · have check := TypeExpr.mem_identifiers_object.2 ⟨m, hm, hn⟩
      exact .check ((typeMembers_uses c t he x.typeMembers_eq n).1 check)
  · obtain ⟨o, rfl, some, rfl⟩ := defaults_refer hk hn
    obtain ⟨f, hf⟩ := List.exists_mem_of_ne_nil _ some
    exact .resolver hf (.inl (.inl ⟨o, .inl rfl, rfl⟩))

/-- Whatever is shown in a part of the unit is referred to by a declaration. -/
theorem refers_of_shows {n : String} (h : src.ShowsUnit a.Expands e n) :
    ∃ d ∈ (x.assemble src.switches).declarations, d.Refers n := by
  have aggregate : ∀ m ∈ x.aggregate.members, n ∈ m.value.identifiers →
      ∃ d ∈ (x.assemble src.switches).declarations, d.Refers n := fun m hm hn =>
    ⟨.interface x.aggregate, mem_declarations.2 (.inr (.inr (.inr (.inl rfl)))),
      .inr (TypeExpr.mem_identifiers_object.2 ⟨m, hm, hn⟩)⟩
  cases h with
  | inputField hl hi hb hs =>
    obtain ⟨-, rfl⟩ := mem_of_lastOf hi
    obtain ⟨i, hi, hd⟩ := exists_mem_of_mapM x.inputInterfaces_eq ((mem_inputs_iff t he).2 ⟨hl, hi⟩)
    refine ⟨.interface i, mem_declarations.2 (.inl ⟨i, hi, rfl⟩), .inr ?_⟩
    exact ((inputInterface_uses hd).2 n).2 ⟨_, hb, hs⟩
  | argument hf hb hs =>
    have filtered : _ ∈ e.fields.filter fun f => !f.arguments.isEmpty :=
      List.mem_filter.2 ⟨hf, by simpa using List.ne_nil_of_mem hb⟩
    obtain ⟨i, hi, hd⟩ := exists_mem_of_mapM x.argumentInterfaces_eq filtered
    refine ⟨.interface i, mem_declarations.2 (.inr (.inl ⟨i, hi, rfl⟩)), .inr ?_⟩
    exact ((argumentsInterface_uses hd).2 n).2 ⟨_, hb, hs⟩
  | resolver hf hs =>
    obtain ⟨r, hr, he⟩ := exists_mem_of_mapM x.resolvers_eq hf
    have uses := resolverAlias_uses (entityType_uses x.parent_eq) he
    exact ⟨.alias r, mem_declarations.2 (.inr (.inr (.inl ⟨r, hr, rfl⟩))), (uses n).2 hs⟩
  | @member f hf =>
    have listed : Member.required f.name (.ident f.resolverName) ∈ x.aggregate.members :=
      List.mem_append_left _ (List.mem_map_of_mem hf)
    exact aggregate _ listed ((Uses.ident f.resolverName _).2 rfl)
  | check hs =>
    have found := (typeMembers_uses c t he x.typeMembers_eq n).2 hs
    obtain ⟨m, hm, hn⟩ := TypeExpr.mem_identifiers_object.1 found
    exact aggregate m (List.mem_append_right _ hm) hn

/-- Whatever a declaration refers to is explained. -/
theorem refers_sound {d : Declaration} (hd : d ∈ (x.assemble src.switches).declarations) {n : String}
    (hn : d.Refers n) : Explained x n := by
  cases shows_of_refers c t he hd hn with
  | inputField hl hi hb hs => exact .of_shows (fun _ _ hr => .inputField hl hi hb hr) hs
  | argument hf hb hs => exact .of_shows (fun _ _ hr => .argument hf hb hr) hs
  | resolver hf hs =>
    rcases hs with own | ⟨some, rfl⟩ | rfl | rfl | hs | rfl | rfl
    · exact .of_showsSome (fun o ho => .own ho (.inl (List.ne_nil_of_mem hf))) own
    · exact .declared (argumentsName_declared hf some)
    · exact .context
    · exact .library
    · exact .of_shows (fun _ _ hr => .type hf hr) hs
    · exact .global (by decide)
    · exact .global (by split <;> decide)
  | member hf => exact .declared (resolverName_declared hf)
  | check hs =>
    have some : x.typeMembers ≠ [] := by
      obtain ⟨m, hm, -⟩ := TypeExpr.mem_identifiers_object.1 ((typeMembers_uses c t he x.typeMembers_eq n).2 hs)
      exact List.ne_nil_of_mem hm
    cases e with
    | object o =>
      obtain ⟨-, rfl | rfl | possible⟩ := hs
      · exact .typeOf (by simpa [EntityParts.assemble] using some)
      · exact .context
      · exact .of_showsSome (fun b hb => .possible rfl hb) possible
    | interface i =>
      rcases hs with rfl | rfl | rfl | own
      · exact .library
      · exact .context
      · exact .global (by decide)
      · exact .of_showsSome (fun o ho => .own ho (.inr rfl)) own
    | union u =>
      rcases hs with rfl | rfl | rfl | own
      · exact .library
      · exact .context
      · exact .global (by decide)
      · exact .of_showsSome (fun o ho => .own ho (.inr rfl)) own

omit c t he in
/-- Every mention is shown. -/
theorem shows_of_mentions {n : String} {k : Category} (h : Mentions a.Expands src.schema e n k) :
    src.ShowsUnit a.Expands e (src.identifier k n) := by
  cases h with
  | @own o ho visible =>
    by_cases hf : e.fields = []
    · have abstract := visible.resolve_left (fun h => h hf)
      refine .check ?_
      have own : src.ShowsOwn a.Expands e (src.identifier .object o.name) := .inl ⟨o, ho, rfl⟩
      cases e with
      | object o => cases abstract
      | interface i => exact .inr (.inr (.inr own))
      | union u => exact .inr (.inr (.inr own))
    · obtain ⟨f, hf⟩ := List.exists_mem_of_ne_nil _ hf
      exact .resolver hf (.inl (.inl ⟨o, ho, rfl⟩))
  | type hf hr => exact .resolver hf (.inr (.inr (.inr (.inr (.inl (.of_standsFor hr))))))
  | argument hf hb hr => exact .argument hf hb (.of_standsFor hr)
  | inputField hl hi hb hr => exact .inputField hl hi hb (.of_standsFor hr)
  | possible ho hb =>
    subst ho
    exact .check ⟨⟨_, hb⟩, .inr (.inr (.inl ⟨_, hb, rfl⟩))⟩

/-- Every mention is referred to by a declaration. -/
theorem refers_complete {n : String} {k : Category} (h : Mentions a.Expands src.schema e n k) :
    ∃ d ∈ (x.assemble src.switches).declarations, d.Refers (src.identifier k n) :=
  refers_of_shows c t he (shows_of_mentions h)

end Mentions

/-! ## Units provide for mentions -/

/-- A unit knows what a mention refers to. It imports the models of objects and of scalars that are not built in, it
imports enums from the enum unit, and it declares input types. Interfaces and unions are not mentioned themselves. -/
def Source.Provides (src : Source) (u : EntityUnit) (name : String) : Category → Prop
  | .object => ∀ m, src.models.objectModel? src.schema.roots name = some m → u.ImportsFrom m.module m.typeName
  | .scalar => name ∉ Sdl.builtinScalars → ∀ m, src.models.lookup name = .external m →
      u.ImportsFrom m.module m.typeName
  | .enum => u.ImportsFrom "./enums" name
  | .input => name ∈ u.declarations.map Declaration.name
  | .interface | .union => False

section Units

variable {src : Source} {a : Associations} {e : Entity} (u : src.schema.Unambiguous) (c : src.schema.Consistent)
  (t : Tables src.schema a) (placed : src.schema.Placed) (he : e ∈ src.schema.entities)

include placed he in
/-- Whatever is mentioned is needed. -/
theorem needed_of_mentions {n : String} {k : Category} (h : Mentions a.Expands src.schema e n k) :
    Needed a.Expands src.schema e n k := by
  cases h with
  | own ho _ =>
    rcases ho with ho | ho
    · exact .own ho
    · exact .behindOwn ho
  | type hf hr =>
    rcases hr with ⟨concrete, rfl, rfl⟩ | ⟨rfl, o, ho, rfl⟩
    · exact .field hf concrete
    · exact .behindField hf ho
  | argument hf hb hr =>
    obtain ⟨rfl, rfl⟩ := (standsFor_iff_of_input (placed.arguments e he _ hf _ hb)).1 hr
    exact .argument hf hb
  | inputField hl hi hb hr =>
    obtain ⟨rfl, rfl⟩ := (standsFor_iff_of_input (placed.inputFields _ (mem_of_lastOf hi).1 _ hb)).1 hr
    exact .inputField hl hi hb
  | possible ho hb => exact .typeOf ho hb

theorem not_mentions_abstract {n : String} {k : Category} (h : Mentions a.Expands src.schema e n k) :
    k.isAbstract = false := by
  have stands : ∀ {r : TypeRef}, StandsFor a.Expands r n k → k.isAbstract = false := by
    rintro r (⟨concrete, -, rfl⟩ | ⟨rfl, -⟩)
    · exact concrete
    · rfl
  cases h with
  | own _ _ => rfl
  | type _ hr => exact stands hr
  | argument _ _ hr => exact stands hr
  | inputField _ _ _ hr => exact stands hr
  | possible _ _ => rfl

include u he in
/-- A mentioned enum is one that the entity refers to. -/
theorem refersToEnum_of_mentions {n : String} (h : Mentions a.Expands src.schema e n .enum) :
    src.schema.RefersToEnum e n := by
  have named : ∀ {r : TypeRef}, StandsFor a.Expands r n .enum → r.category = .enum ∧ r.name = n := by
    rintro r (⟨-, rfl, hk⟩ | ⟨hk, -⟩)
    · exact ⟨hk, rfl⟩
    · cases hk
  generalize hk : Category.enum = k at h
  cases h with
  | own _ _ => cases hk
  | type hf hr =>
    rw [← u.walkedFields_eq he] at hf
    exact .inl ⟨_, hf, _, List.mem_cons_self, named (hk ▸ hr)⟩
  | argument hf hb hr =>
    rw [← u.walkedFields_eq he] at hf
    exact .inl ⟨_, hf, _, List.mem_cons_of_mem _ (List.mem_map_of_mem hb), named (hk ▸ hr)⟩
  | inputField hl hi hb hr => exact .inr ⟨_, _, hl, hi, _, hb, named (hk ▸ hr)⟩
  | possible _ _ => cases hk

include u placed he in
/-- A mentioned input type is one that the entity leads to. -/
theorem leads_of_mentions {n : String} (h : Mentions a.Expands src.schema e n .input) : src.schema.Leads e n := by
  have named : ∀ {r : TypeRef}, StandsFor a.Expands r n .input → r.category = .input ∧ r.name = n := by
    rintro r (⟨-, rfl, hk⟩ | ⟨hk, -⟩)
    · exact ⟨hk, rfl⟩
    · cases hk
  generalize hk : Category.input = k at h
  cases h with
  | own _ _ => cases hk
  | type hf hr => exact absurd (named (hk ▸ hr)).1 (placed.fields e he _ hf)
  | argument hf hb hr =>
    obtain ⟨hc, rfl⟩ := named (hk ▸ hr)
    rw [← u.walkedFields_eq he] at hf
    exact .argument (List.mem_flatMap.2 ⟨_, hf, hb⟩) hc
  | inputField hl hi hb hr =>
    obtain ⟨hc, rfl⟩ := named (hk ▸ hr)
    exact .field hl hi hb hc
  | possible _ _ => cases hk

include u c t placed he in
/-- Every mention is provided for. -/
theorem provides_of_mentions {v : EntityUnit} (hv : src.entityUnit a e = .ok v) {n : String} {k : Category}
    (h : Mentions a.Expands src.schema e n k) : src.Provides v n k := by
  obtain ⟨x, g, hg, rfl⟩ := entityUnit_eq_ok hv
  obtain ⟨distinct, imports⟩ := importGroups_eq u c t he hg
  have needed := needed_of_mentions placed he h
  rw [expands_eq c u t] at needed
  have imported : ∀ m, src.models.model? src.schema.roots k n = some m →
      (x.unit g).ImportsFrom m.module m.typeName := fun m hm =>
    (x.importsFrom_unit distinct).2 (.inr (.inl ((imports _ _).2 (.inl ⟨n, k, needed, m, hm, rfl, rfl⟩))))
  cases k with
  | object => exact imported
  | scalar =>
    intro _ m hm
    refine imported m ?_
    simp [ModelMap.model?, hm]
  | enum =>
    obtain ⟨ns, hns, -, mem⟩ := enums_eq (p := src.projection a) t he x.inputs_eq
    cases hns.symm.trans x.enums_eq
    have listed : n ∈ x.enums := (mem n).2 (refersToEnum_of_mentions u he h)
    exact (x.importsFrom_unit distinct).2 (.inr (.inr ⟨rfl, listed⟩))
  | input =>
    have leads := leads_of_mentions u placed he h
    obtain ⟨is, his, -, -, mem⟩ := inputTypes_eq (p := src.projection a) t he
    cases his.symm.trans x.inputs_eq
    show n ∈ (x.assemble src.switches).declarations.map Declaration.name
    rw [x.names_assemble]
    exact List.mem_append_left _ ((mem n).2 leads)
  | interface => cases not_mentions_abstract h
  | union => cases not_mentions_abstract h

include u c t placed he in
/-- What a declaration refers to is a global, declared or imported. -/
theorem known_of_refers {v : EntityUnit} (hv : src.entityUnit a e = .ok v) {d : Declaration}
    (hd : d ∈ v.declarations) {n : String} (hn : d.Refers n) :
    n ∈ globals ∨ n ∈ v.declaredNames ∨ ∃ module, v.ImportsFrom module n := by
  obtain ⟨x, g, hg, rfl⟩ := entityUnit_eq_ok hv
  obtain ⟨distinct, imports⟩ := importGroups_eq u c t he hg
  have library : ∀ name ∈ (EntityUnit.libraryImport (x.assemble src.switches).hasTypeOf).names,
      (x.unit g).ImportsFrom "graphql" name :=
    fun name hn => (x.importsFrom_unit distinct).2 (.inl ⟨rfl, hn⟩)
  cases refers_sound c t he hd hn with
  | global hg => exact .inl hg
  | library =>
    refine .inr (.inr ⟨_, library _ ?_⟩)
    unfold EntityUnit.libraryImport
    split <;> simp
  | typeOf some =>
    refine .inr (.inr ⟨_, library _ ?_⟩)
    unfold EntityUnit.libraryImport
    rw [if_pos some]
    simp
  | context =>
    cases hc : src.context with
    | none => exact .inr (.inl (by simp [EntityParts.unit, EntityUnit.declaredNames, Source.contextName, hc]))
    | some k =>
      have name : src.contextName = k.typeName := by simp [Source.contextName, hc]
      have found := (imports k.module k.typeName).2 (.inr ⟨k, hc, rfl, rfl⟩)
      exact .inr (.inr ⟨k.module, name ▸ (x.importsFrom_unit distinct).2 (.inr (.inl found))⟩)
  | declared hn => exact .inr (.inl (List.mem_append_right _ hn))
  | @mention m k hm =>
    have provided := provides_of_mentions u c t placed he hv hm
    cases k with
    | object =>
      rcases src.models.valueName_cases src.schema.roots m with hg | ⟨model, hf, name⟩
      · exact .inl hg
      · have identifier : src.identifier .object m = model.typeName := name
        exact .inr (.inr ⟨_, identifier ▸ provided model hf⟩)
    | scalar =>
      rcases src.models.scalarName_cases m with hg | ⟨custom, model, hf, name⟩
      · exact .inl hg
      · have identifier : src.identifier .scalar m = model.typeName := name
        exact .inr (.inr ⟨_, identifier ▸ provided custom model hf⟩)
    | enum => exact .inr (.inr ⟨_, provided⟩)
    | input => exact .inr (.inl (List.mem_append_right _ provided))
    | interface => cases provided
    | union => cases provided

end Units

/-- The unit of an entity is closed. Its declarations refer to globals, to what it declares and to what it imports; they
refer to every mention, and the unit provides for it; and apart from mentions they refer to a few fixed names and to
their own. -/
structure Source.Closed (src : Source) (e : Entity) (u : EntityUnit) : Prop where
  known : ∀ d ∈ u.declarations, ∀ n, d.Refers n →
    n ∈ globals ∨ n ∈ u.declaredNames ∨ ∃ module, u.ImportsFrom module n
  provided : ∀ n k, Mentions src.schema.Expands src.schema e n k → src.Provides u n k
  mentioned : ∀ n k, Mentions src.schema.Expands src.schema e n k → ∃ d ∈ u.declarations, d.Refers (src.identifier k n)
  explained : ∀ d ∈ u.declarations, ∀ n, d.Refers n → n ∈ globals ∨ n ∈ [resolveInfo, isTypeOf, src.contextName] ∨
    n ∈ u.declarations.map Declaration.name ∨
      ∃ m k, Mentions src.schema.Expands src.schema e m k ∧ n = src.identifier k m

/-- Every generated entity unit is closed. The document must define no name twice, and its types must stand where types
of their category may stand. -/
theorem entity_units_closed {d : Sdl.Document} {src : Source} (accepted : d.schema = .ok src.schema)
    (distinct : (d.types.map Sdl.TypeDefinition.name).Nodup) (placed : src.schema.Placed) {format : Formatter}
    {us : List OutputUnit} (generated : src.generate format = .ok us) :
    src.EachUnit format us fun e u => src.Closed e u := by
  have c : src.schema.Consistent := Sdl.schema_consistent accepted
  have u : src.schema.Unambiguous := Sdl.schema_unambiguous accepted distinct
  refine eachUnit_of_generate generated fun a ha e he v hv => ?_
  have t : Tables src.schema a := tables_of_build ha
  obtain ⟨x, g, -, parts⟩ := entityUnit_eq_ok hv
  have declarations : v.declarations = (x.assemble src.switches).declarations := congrArg EntityUnit.declarations parts
  have expands : a.Expands = src.schema.Expands := expands_eq c u t
  refine ⟨fun d hd n hn => known_of_refers u c t placed he hv hd hn, ?_, ?_, ?_⟩
  · rw [← expands]
    exact fun n k h => provides_of_mentions u c t placed he hv h
  · rw [← expands, declarations]
    exact fun n k h => refers_complete c t he h
  · rw [← expands, declarations]
    exact fun d hd n hn => (refers_sound c t he hd hn).cases

theorem entity_units_closed_library : ∃ us, librarySource.generate .passthrough = .ok us ∧
    librarySource.EachUnit .passthrough us fun e u => librarySource.Closed e u := by
  obtain ⟨us, generated⟩ := library_generates
  have placed : librarySource.schema.Placed := ⟨by decide, by decide, by decide⟩
  exact ⟨us, generated, entity_units_closed library_accepted (by decide) placed generated⟩

end SchemaTypings

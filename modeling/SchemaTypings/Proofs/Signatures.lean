import Mathlib
import SchemaTypings.Proofs.Closure
import SchemaTypings.Proofs.Linking
import SchemaTypings.Proofs.Modifiers

/-!
# Signatures of resolvers

The declarations of an entity are made in three loops over its fields: one for arguments, one for resolvers, and one for
the members of the aggregate. Each of them works out the names that it needs on its own. Here they meet: a name that one
of them refers to is declared by another one, exactly once.

- `Within u t`: a type occurs within another one. No function occurs within the type of a schema name
  (`not_within_project`);
- `maybePromise_eq`: the result of a resolver is the type of its field or the promise of one;
- `OnlyDeclaration ds d`: a declaration is the only one of its name;
- `Source.Fits`: the resolver of a field has the type that is due to it, and its arguments are those of the field;
- `declarations_fit_together`: this holds of all fields of an entity, and its aggregate refers to their resolvers.
-/

namespace SchemaTypings

open TypeScript

namespace TypeScript.TypeExpr

/-! ## Types within types -/

/-- A type occurs within a type, be it the type itself. -/
inductive Within (u : TypeExpr) : TypeExpr → Prop
  | self : Within u u
  | param {head : TypeName} {ps : List TypeExpr} {t : TypeExpr} : t ∈ ps → Within u t → Within u (.named head ps)
  | value {ms : List (Member TypeExpr)} {m : Member TypeExpr} : m ∈ ms → Within u m.value → Within u (.object ms)
  | parameter {ps : List (Member TypeExpr)} {p : Member TypeExpr} {r : TypeExpr} :
    p ∈ ps → Within u p.value → Within u (.function ps r)
  | result {ps : List (Member TypeExpr)} {r : TypeExpr} : Within u r → Within u (.function ps r)
  | member {ts : List TypeExpr} {t : TypeExpr} : t ∈ ts → Within u t → Within u (.oneOf ts)

/-- No function occurs within a type. -/
def Plain (t : TypeExpr) : Prop := ∀ ps r, ¬Within (.function ps r) t

theorem plain_ident (n : String) : Plain (.ident n) := by
  intro ps r h
  cases h with
  | param ht _ => cases ht

theorem Plain.generic {t : TypeExpr} (h : Plain t) (n : String) : Plain (.generic n t) := by
  intro ps r hw
  cases hw with
  | param ht hw =>
    obtain rfl := List.mem_singleton.1 ht
    exact h ps r hw

/-- What occurs within a member of a type occurs within the type. -/
theorem Within.of_alternative {u t a : TypeExpr} (ha : a ∈ t.alternatives) (h : Within u a) : Within u t := by
  cases t with
  | oneOf ts => exact .member ha h
  | _ =>
    obtain rfl := List.mem_singleton.1 ha
    exact h

/-- A function within a union occurs within one of the types that the union is made of. -/
theorem Within.of_union {ps : List (Member TypeExpr)} {r : TypeExpr} {ts : List TypeExpr} :
    Within (.function ps r) (.union ts) → ∃ t ∈ ts, Within (.function ps r) t := by
  have part : ∀ a ∈ ts.flatMap alternatives, Within (.function ps r) a → ∃ t ∈ ts, Within (.function ps r) t := by
    intro a ha h
    obtain ⟨t, ht, ha⟩ := List.mem_flatMap.1 ha
    exact ⟨t, ht, h.of_alternative ha⟩
  refine union_cases (Q := fun t => Within (.function ps r) t → ∃ t ∈ ts, Within (.function ps r) t) ?_ part ?_
  · exact fun h => absurd h (plain_ident _ ps r)
  · intro as _ _ members h
    cases h with
    | member ha h => exact part _ (members _ ha) h

theorem Plain.union {ts : List TypeExpr} (h : ∀ t ∈ ts, Plain t) : Plain (.union ts) := by
  intro ps r hw
  obtain ⟨t, ht, hw⟩ := hw.of_union
  exact h t ht ps r hw

theorem Plain.or {s t : TypeExpr} (hs : Plain s) (ht : Plain t) : Plain (s.or t) :=
  .union (by simp [hs, ht])

/-! ## A type or the promise of one -/

theorem sizeOf_of_mem_alternatives {a t : TypeExpr} (h : a ∈ t.alternatives) : sizeOf a ≤ sizeOf t := by
  cases t with
  | oneOf ts =>
    have smaller : sizeOf a < sizeOf ts := List.sizeOf_lt_of_mem h
    simp only [oneOf.sizeOf_spec]
    omega
  | _ =>
    obtain rfl := List.mem_singleton.1 h
    exact Nat.le_refl _

/-- A type is not a member of its parameter. -/
theorem generic_not_mem_alternatives (n : String) (t : TypeExpr) : generic n t ∉ t.alternatives := by
  intro h
  have size := sizeOf_of_mem_alternatives h
  simp [generic] at size
  omega

/-- The members of a type, and the promise of the type behind them. -/
theorem maybePromise_eq {t : TypeExpr} (flat : Flat t) :
    maybePromise t = .oneOf (t.alternatives ++ [.generic "Promise" t]) := by
  refine or_eq_oneOf flat.alternatives_ne_nil rfl (flat.nodup_alternatives.append (List.nodup_singleton _) ?_)
  exact List.disjoint_singleton.2 (generic_not_mem_alternatives _ t)

end TypeScript.TypeExpr

/-! ## The types of schema names -/

namespace Projection

open TypeExpr

variable {p : Projection}

/-- A property that lists and the admission of `null` keep is kept by all modifiers. -/
theorem modified_induction {Q : TypeExpr → Prop} (or_null : ∀ t, Q t → Q (t.or .null))
    (list : ∀ t, Q t → Q (.generic "Array" t)) {t : TypeExpr} (h : Q t) (r : TypeRef) :
    Q (modified t r) := by
  have wrapped : ∀ (layers : List ListLayer) (t : TypeExpr), Q t → Q (layers.foldl wrap t) := by
    intro layers
    induction layers with
    | nil => exact fun _ h => h
    | cons layer layers ih =>
      intro t h
      rw [List.foldl_cons]
      cases layer with
      | nullable => exact ih _ (or_null _ (list _ h))
      | nonNull => exact ih _ (list _ h)
  unfold modified
  split
  · exact wrapped _ _ (or_null t h)
  · exact wrapped _ _ h

theorem flat_project {r : TypeRef} {t : TypeExpr} (h : p.project r = .ok t) : Flat t := by
  obtain ⟨named, hn, h⟩ := bind_eq_ok.1 h
  cases h
  exact modified_induction (fun _ => Flat.or_null) (fun _ h => h.generic _) (flat_namedType hn) r

theorem plain_namedType {n : String} {c : Category} {t : TypeExpr} (h : p.namedType n c = .ok t) : Plain t := by
  obtain ⟨is, rfl⟩ := exists_union_of_namedType h
  refine .union fun t ht => ?_
  obtain ⟨i, -, rfl⟩ := List.mem_map.1 ht
  exact plain_ident i

theorem plain_project {r : TypeRef} {t : TypeExpr} (h : p.project r = .ok t) : Plain t := by
  obtain ⟨named, hn, h⟩ := bind_eq_ok.1 h
  cases h
  exact modified_induction (fun _ h => h.or (plain_ident _)) (fun _ h => h.generic _) (plain_namedType hn) r

/-- The values of an entity have the type of its name. -/
theorem entityType_eq (e : Entity) : p.entityType e = p.namedType e.name e.definition.category := by
  cases e <;> rfl

end Projection

/-! ## Declarations that fit together -/

/-- A declaration is the only one of its name. -/
def OnlyDeclaration (ds : List Declaration) (d : Declaration) : Prop := ds.filter (·.name == d.name) = [d]

theorem onlyDeclaration {ds : List Declaration} (distinct : (ds.map Declaration.name).Nodup) {d : Declaration}
    (hd : d ∈ ds) : OnlyDeclaration ds d := by
  have only : ∀ y ∈ ds, (y.name == d.name) = true ↔ y = d := fun y hy => by
    rw [beq_iff_eq]
    exact ⟨List.inj_on_of_nodup_map distinct hy hd, congrArg _⟩
  have selected := filter_map_eq_singleton (f := id) (p := fun y => y.name == d.name) distinct.of_map hd only
  rwa [List.map_id] at selected

/-- An entity is the object type for subscriptions. -/
def Entity.IsSubscriptionRoot (roots : Roots) (e : Entity) : Prop := ∃ o, e = .object o ∧ o.name = roots.subscription

theorem isSubscription_iff {roots : Roots} {e : Entity} :
    e.isSubscription roots = true ↔ e.IsSubscriptionRoot roots := by
  cases e <;> simp [Entity.isSubscription, Entity.IsSubscriptionRoot]

namespace Source

variable (src : Source)

/-- The parameters of the functions that resolve a field, for values of the given type. -/
def parameters (parent : TypeExpr) (f : Field) : List (Member TypeExpr) :=
  [.required "parent" parent, .required "args" (if f.arguments = [] then .object [] else .ident f.argumentsName),
    .required "context" src.contextType, .required "info" (.ident resolveInfo)]

/-- A function that resolves a field to a value of the given type or to the promise of one. -/
def resolving (parent : TypeExpr) (f : Field) (t : TypeExpr) : TypeExpr :=
  .function (src.parameters parent f) (.oneOf (t.alternatives ++ [.generic "Promise" t]))

/-- The resolver of a stream of values, perhaps with a function for each of them. -/
def streaming (parent : TypeExpr) (f : Field) (t : TypeExpr) : TypeExpr :=
  .object [.required "subscribe" (src.resolving parent f (.generic "AsyncIterator" t)),
    ⟨"resolve", src.resolving parent f t, true⟩]

/-- The resolver of single values: a function, or a record of a function and the query fragment that it needs. -/
def answering (parent : TypeExpr) (f : Field) (t : TypeExpr) : TypeExpr :=
  .oneOf [src.resolving parent f t,
    .object [.required "fragment" (.ident "string"), .required "resolve" (src.resolving parent f t)]]

/-- In the declarations of an entity, the resolver of a field has the type `r`, where values of the entity have the type
`parent` and those of the field the type `t`. All functions in it take the same parameters. The arguments among these
are declared as the field has them, if it has any. Only fields of the subscription root have a record, for a stream. -/
structure Fits (a : Associations) (e : Entity) (ds : List Declaration) (f : Field) (parent t r : TypeExpr) : Prop where
  values : (src.projection a).entityType e = .ok parent
  type : (src.projection a).project f.type = .ok t
  resolver : OnlyDeclaration ds (.alias ⟨.ident f.resolverName, r⟩)
  parameters : ∀ ps result, TypeExpr.Within (.function ps result) r → ps = src.parameters parent f
  arguments : f.arguments ≠ [] → ∃ ms, OnlyDeclaration ds (.interface ⟨f.argumentsName, none, ms⟩) ∧
    List.Forall₂ (fun b m => m.key = b.name ∧ (src.projection a).project b.type = .ok m.value ∧
      m.optional = b.type.isNullable) f.arguments ms
  isRecord : (∃ ms, r = .object ms) ↔ e.IsSubscriptionRoot src.schema.roots
  stream : e.IsSubscriptionRoot src.schema.roots → r = src.streaming parent f t
  answer : ¬e.IsSubscriptionRoot src.schema.roots → r = src.answering parent f t

end Source

section Fields

variable {src : Source} {a : Associations} {e : Entity} {f : Field}

open TypeExpr

/-! ## Functions that resolve a field -/

/-- A function of plain types has no other function in it. -/
theorem TypeScript.TypeExpr.Within.of_function {ps qs : List (Member TypeExpr)} {r s : TypeExpr}
    (h : Within (.function ps r) (.function qs s)) (parameters : ∀ q ∈ qs, Plain q.value) (result : Plain s) :
    ps = qs := by
  cases h with
  | self => rfl
  | parameter hq h => exact absurd h (parameters _ hq ps r)
  | result h => exact absurd h (result ps r)

theorem plain_contextType (src : Source) : Plain src.contextType := by
  unfold Source.contextType
  split <;> exact plain_ident _

theorem plain_parameters {parent : TypeExpr} (h : Plain parent) (f : Field) :
    ∀ q ∈ src.parameters parent f, Plain q.value := by
  have empty : Plain (.object []) := by
    intro ps r h
    cases h with
    | value hm _ => cases hm
  have arguments : Plain (if f.arguments = [] then .object [] else .ident f.argumentsName) := by
    split
    · exact empty
    · exact plain_ident _
  intro q hq
  simp only [Source.parameters, List.mem_cons, List.not_mem_nil, or_false] at hq
  rcases hq with rfl | rfl | rfl | rfl
  · exact h
  · exact arguments
  · exact plain_contextType src
  · exact plain_ident _

section Parameters

variable {parent t : TypeExpr} (hp : Plain parent) (flat : Flat t) (ht : Plain t) {ps : List (Member TypeExpr)}
  {result : TypeExpr}

include hp flat ht

theorem parameters_of_resolving (h : Within (.function ps result) (src.resolving parent f t)) :
    ps = src.parameters parent f := by
  refine h.of_function (plain_parameters hp f) ?_
  rw [← maybePromise_eq flat]
  exact ht.or (ht.generic _)

theorem parameters_of_streaming (h : Within (.function ps result) (src.streaming parent f t)) :
    ps = src.parameters parent f := by
  cases h with
  | value hm h =>
    simp only [List.mem_cons, List.not_mem_nil, or_false] at hm
    rcases hm with rfl | rfl
    · exact parameters_of_resolving hp (flat.generic _) (ht.generic _) h
    · exact parameters_of_resolving hp flat ht h

theorem parameters_of_answering (h : Within (.function ps result) (src.answering parent f t)) :
    ps = src.parameters parent f := by
  cases h with
  | member hu h =>
    simp only [List.mem_cons, List.not_mem_nil, or_false] at hu
    rcases hu with rfl | rfl
    · exact parameters_of_resolving hp flat ht h
    · cases h with
      | value hm h =>
        simp only [List.mem_cons, List.not_mem_nil, or_false] at hm
        rcases hm with rfl | rfl
        · exact absurd h (plain_ident _ ps result)
        · exact parameters_of_resolving hp flat ht h

end Parameters

/-! ## What is rendered for a field -/

theorem function_eq {parent t : TypeExpr} (flat : Flat t) :
    ResolverParams.function ⟨parent, src.contextType⟩ f (maybePromise t) = src.resolving parent f t := by
  unfold ResolverParams.function Source.resolving Source.parameters ResolverParams.argumentsType
  rw [maybePromise_eq flat]
  simp only [List.isEmpty_iff]

theorem subscriptionResolver_eq {parent t : TypeExpr} (flat : Flat t) :
    ResolverParams.subscriptionResolver ⟨parent, src.contextType⟩ f t = src.streaming parent f t := by
  rw [ResolverParams.subscriptionResolver, function_eq (flat.generic _), function_eq flat]
  rfl

theorem resolver_eq {parent t : TypeExpr} (flat : Flat t) :
    ResolverParams.resolver ⟨parent, src.contextType⟩ f t = src.answering parent f t := by
  rw [ResolverParams.resolver, function_eq flat]
  exact or_eq_oneOf (by simp [Source.resolving, alternatives]) rfl (by simp [Source.resolving, alternatives])

theorem resolverAlias_eq_ok {parent : TypeExpr} {x : TypeAlias}
    (h : (src.projection a).resolverAlias ⟨parent, src.contextType⟩ e f = .ok x) :
    ∃ t r, (src.projection a).project f.type = .ok t ∧ x = ⟨.ident f.resolverName, r⟩ ∧
      (e.IsSubscriptionRoot src.schema.roots → r = src.streaming parent f t) ∧
      (¬e.IsSubscriptionRoot src.schema.roots → r = src.answering parent f t) := by
  obtain ⟨t, ht, h⟩ := bind_eq_ok.1 h
  cases h
  have flat : Flat t := Projection.flat_project ht
  refine ⟨t, _, ht, rfl, fun root => ?_, fun other => ?_⟩
  · exact (if_pos (isSubscription_iff.2 root)).trans (subscriptionResolver_eq flat)
  · exact (if_neg fun root => other (isSubscription_iff.1 root)).trans (resolver_eq flat)

variable (x : EntityParts (src.projection a) src.contextType e)
  (distinct : ((x.assemble src.switches).declarations.map Declaration.name).Nodup) (hf : f ∈ e.fields)

include distinct hf

/-- A field with arguments has one interface for them. -/
theorem exists_argumentsInterface (some : f.arguments ≠ []) :
    ∃ ms, OnlyDeclaration (x.assemble src.switches).declarations (.interface ⟨f.argumentsName, none, ms⟩) ∧
      List.Forall₂ (fun b m => m.key = b.name ∧ (src.projection a).project b.type = .ok m.value ∧
        m.optional = b.type.isNullable) f.arguments ms := by
  have kept : f ∈ e.fields.filter fun f => !f.arguments.isEmpty := List.mem_filter.2 ⟨hf, by simpa using some⟩
  obtain ⟨i, declared, hi⟩ := exists_mem_of_mapM x.argumentInterfaces_eq kept
  obtain ⟨ms, hms, hi⟩ := bind_eq_ok.1 hi
  cases hi
  refine ⟨ms, onlyDeclaration distinct (mem_declarations.2 (.inr (.inl ⟨_, declared, rfl⟩))), ?_⟩
  refine (mapM_eq_ok.1 hms).imp fun b m hm => ?_
  obtain ⟨value, hv, hm⟩ := bind_eq_ok.1 hm
  cases hm
  exact ⟨rfl, hv, rfl⟩

theorem exists_fits : ∃ parent t r, src.Fits a e (x.assemble src.switches).declarations f parent t r := by
  obtain ⟨d, declared, hd⟩ := exists_mem_of_mapM x.resolvers_eq hf
  obtain ⟨t, r, ht, rfl, stream, answer⟩ := resolverAlias_eq_ok hd
  have parent : Plain x.parent := Projection.plain_namedType ((Projection.entityType_eq e).symm.trans x.parent_eq)
  have type : Plain t := Projection.plain_project ht
  have flat : Flat t := Projection.flat_project ht
  refine ⟨x.parent, t, r, {
    values := x.parent_eq
    type := ht
    resolver := onlyDeclaration distinct (mem_declarations.2 (.inr (.inr (.inl ⟨_, declared, rfl⟩))))
    parameters := fun ps result h => ?_
    arguments := exists_argumentsInterface x distinct hf
    isRecord := ⟨?_, fun root => ⟨_, stream root⟩⟩
    stream := stream
    answer := answer }⟩
  · by_cases root : e.IsSubscriptionRoot src.schema.roots
    · exact parameters_of_streaming parent flat type (stream root ▸ h)
    · exact parameters_of_answering parent flat type (answer root ▸ h)
  · rintro ⟨ms, rfl⟩
    by_contra other
    cases answer other

end Fields

/-- The declarations of an entity fit together. Its aggregate is declared once. It begins with a required member for
each field, in order, under the name of the field and with the type of its resolver, and what follows are the checks of
types. The resolver of each field is declared once and fits the field. -/
theorem declarations_fit_together {src : Source} {a : Associations} {e : Entity} {built : EntityDeclarations}
    (h : EntityDeclarations.build (src.projection a) src.contextType src.switches e = .ok built) :
    (∃ checks, (src.projection a).typeMembers src.contextType e = .ok checks ∧
      OnlyDeclaration built.declarations (.interface ⟨aggregateName e.name, none,
        e.fields.map (fun f => .required f.name (.ident f.resolverName)) ++ checks⟩)) ∧
    ∀ f ∈ e.fields, ∃ parent t r, src.Fits a e built.declarations f parent t r := by
  obtain ⟨⟨inputs, inputs_eq, nodup⟩, content⟩ := EntityDeclarations.build_eq_ok.1 h
  obtain ⟨x, rfl⟩ := EntityDeclarations.content_eq_ok content
  cases inputs_eq.symm.trans x.inputs_eq
  have distinct : ((x.assemble src.switches).declarations.map Declaration.name).Nodup := by
    rwa [x.names_assemble]
  have aggregate : .interface x.aggregate ∈ (x.assemble src.switches).declarations :=
    mem_declarations.2 (.inr (.inr (.inr (.inl rfl))))
  exact ⟨⟨x.typeMembers, x.typeMembers_eq, onlyDeclaration distinct aggregate⟩, fun f hf => exists_fits x distinct hf⟩

/-- The root of subscriptions under a name of its own. One of its fields has arguments and a list of the values of an
interface. -/
def live : ObjectType := ⟨"Live", [
  ⟨"posts", ⟨"Event", .interface, false, [.nullable]⟩, [⟨"first", ⟨"Int", .scalar, false, []⟩⟩,
    ⟨"filter", .named "Filter" .input⟩]⟩,
  ⟨"ping", .named "Post" .object, []⟩], []⟩

/-- A source with `live` and the types that it refers to. -/
def liveSource : Source := ⟨⟨[
  .object live,
  .interface ⟨"Event", [⟨"at", .named "String" .scalar, []⟩], ["Post"]⟩,
  .object ⟨"Post", [⟨"at", .named "String" .scalar, []⟩], ["Event"]⟩,
  .input ⟨"Filter", [⟨"not", .named "Filter" .input⟩]⟩], ⟨"Query", "Mutation", "Live"⟩⟩,
  ModelMap.empty.withDefaultModule "./models", some ⟨"Request", "./request"⟩, .off⟩

theorem declarations_fit_together_live : ∃ a built, Associations.build liveSource.schema = .ok a ∧
    EntityDeclarations.build (liveSource.projection a) liveSource.contextType liveSource.switches (.object live) =
      .ok built ∧
    ∀ f ∈ live.fields, ∃ parent t r, liveSource.Fits a (.object live) built.declarations f parent t r := by
  have faultless : fault? (Associations.build liveSource.schema >>= fun a =>
      EntityDeclarations.build (liveSource.projection a) liveSource.contextType liveSource.switches (.object live)) =
        none := by cbv
  obtain ⟨built, h⟩ := fault?_eq_none.1 faultless
  obtain ⟨a, ha, hb⟩ := bind_eq_ok.1 h
  exact ⟨a, built, ha, hb, (declarations_fit_together hb).2⟩

end SchemaTypings

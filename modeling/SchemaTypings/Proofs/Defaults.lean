import SchemaTypings.Proofs.Modifiers
import SchemaTypings.Proofs.Switches

/-!
# Default resolvers

The default resolvers of an object read the properties that its model has. Which ones these are is said by the model or
taken from the types of the fields, and whether an absent property becomes `null` is told from the modifiers of a type,
apart from the type that is generated for it.

- `Model.Has m f`: the model lists the field, or it lists nothing and the field is a scalar or an enum;
- `readingResolver`, `coalescingResolver`: the two texts of a default resolver;
- `Model.Resolves`: the text for a field is the one that goes with the type generated for the field;
- `DefaultsCover`: there is one entry for each field that the model has, in the order of the fields, and nothing else
  about a list of fields matters;
- `defaults_cover`: this holds of all objects whose fields have distinct names.
-/

namespace SchemaTypings

open TypeScript

/-! ## The fields of a model -/

/-- A model has a field: it lists the field, or it lists nothing and the field is a scalar or an enum under whatever
modifiers. -/
inductive Model.Has (m : Model) (f : Field) : Prop
  | listed {names : List String} : m.fields = some names → f.name ∈ names → m.Has f
  | leaf : m.fields = none → f.type.category = .scalar ∨ f.type.category = .enum → m.Has f

theorem Model.carries_iff {m : Model} {f : Field} : m.carries f = true ↔ m.Has f := by
  unfold Model.carries
  constructor
  · intro h
    split at h
    · rename_i names listed
      exact .listed listed (by simpa using h)
    · rename_i unlisted
      exact .leaf unlisted (by simpa using h)
  · rintro (⟨listed, h⟩ | ⟨unlisted, h⟩)
    · simpa [listed] using h
    · simpa [unlisted] using h

instance (m : Model) (f : Field) : Decidable (m.Has f) := decidable_of_iff (m.carries f = true) Model.carries_iff

theorem Model.has_iff_of_listed {m : Model} {names : List String} (listed : m.fields = some names) {f : Field} :
    m.Has f ↔ f.name ∈ names := by
  rw [← Model.carries_iff, Model.carries, listed]
  simp

/-! ## The texts of default resolvers -/

/-- A resolver that reads a property of its parent. -/
def readingResolver (parent property : String) : String := "(parent: " ++ parent ++ ") => parent." ++ property

/-- A resolver that reads a property of its parent and gives `null` in place of an absent one. -/
def coalescingResolver (parent property : String) : String :=
  "(parent: " ++ parent ++ ") => (parent." ++ property ++ " === undefined ? null : parent." ++ property ++ ")"

theorem readingResolver_ne (parent property : String) :
    readingResolver parent property ≠ coalescingResolver parent property := by
  intro same
  have chars := congrArg String.toList same
  simp [readingResolver, coalescingResolver, String.toList_append] at chars

theorem Model.defaultResolver_eq (m : Model) (f : Field) : m.defaultResolver f =
    if f.type.isNullable then coalescingResolver m.typeName f.name else readingResolver m.typeName f.name := by
  refine String.toList_injective ?_
  unfold Model.defaultResolver coalescingResolver readingResolver
  split <;> simp [String.toList_append]

/-! ## The entry of a field -/

/-- An entry is the default resolver of a field: it has the name of the field as its key, and gives `null` in place of
an absent property exactly if the type that is generated for the field admits `null`. This is not said of types whose
name alone stands for a type that does. -/
structure Model.Resolves (m : Model) (f : Field) (entry : String × String) : Prop where
  key : entry.1 = f.name
  coalesces : ∀ (p : Projection) (t base : TypeExpr), p.project f.type = .ok t →
    p.namedType f.type.name f.type.category = .ok base → TypeExpr.null ∉ base.alternatives →
      (entry.2 = coalescingResolver m.typeName f.name ↔ TypeExpr.null ∈ t.alternatives)
  reads : ∀ (p : Projection) (t base : TypeExpr), p.project f.type = .ok t →
    p.namedType f.type.name f.type.category = .ok base → TypeExpr.null ∉ base.alternatives →
      (entry.2 = readingResolver m.typeName f.name ↔ TypeExpr.null ∉ t.alternatives)

theorem Model.resolves_defaultResolver (m : Model) (f : Field) : m.Resolves f (f.name, m.defaultResolver f) where
  key := rfl
  coalesces p t base projected named bare := by
    rw [Projection.null_mem_project projected named bare, m.defaultResolver_eq]
    split
    · rename_i nullable
      simp [nullable]
    · rename_i nullable
      simp [nullable, readingResolver_ne]
  reads p t base projected named bare := by
    rw [Projection.null_mem_project projected named bare, m.defaultResolver_eq]
    split
    · rename_i nullable
      simp [nullable, (readingResolver_ne _ _).symm]
    · rename_i nullable
      simp [nullable]

/-! ## The constant of an object -/

/-- The default resolvers of an object by the fields that its model has. -/
theorem defaultResolvers?_eq (o : ObjectType) (m : Model) : defaultResolvers? o m =
    if ∀ f ∈ o.fields, ¬m.Has f then none
    else some ⟨defaultsName o.name, (o.fields.filter (m.Has ·)).map fun f => (f.name, m.defaultResolver f)⟩ := by
  have carried : o.fields.filter m.carries = o.fields.filter (m.Has ·) :=
    List.filter_congr fun f _ => by rw [Bool.eq_iff_iff, decide_eq_true_iff, Model.carries_iff]
  have empty : (∀ f ∈ o.fields, ¬m.Has f) ↔ o.fields.filter (m.Has ·) = [] := by
    simp [List.filter_eq_nil_iff]
  unfold defaultResolvers?
  rw [carried]
  split
  · rename_i none
    rw [if_pos (empty.2 none)]
  · rename_i some
    rw [if_neg (mt empty.1 some)]

/-- A constant has the default resolvers of the fields that the model of an object has, in the order of the fields and
each once. With a list in the model, these are the fields that are listed. -/
structure Covers (o : ObjectType) (m : Model) (c : Constant) : Prop where
  name : c.name = defaultsName o.name
  entries : List.Forall₂ m.Resolves (o.fields.filter (m.Has ·)) c.entries
  once : (c.entries.map Prod.fst).Nodup
  listed : ∀ names, m.fields = some names →
    c.entries.map Prod.fst = (o.fields.map Field.name).filter (· ∈ names)

/-- The default resolvers of an object cover the fields that its model has. There are none if the model has none of
them. Of the fields that a model lists only those of the object matter, not their order or how often they are listed. -/
structure DefaultsCover (o : ObjectType) (m : Model) : Prop where
  absent : defaultResolvers? o m = none ↔ ∀ f ∈ o.fields, ¬m.Has f
  covers : ∀ c, defaultResolvers? o m = some c → Covers o m c
  insensitive : ∀ names names', m.fields = some names → (∀ f ∈ o.fields, f.name ∈ names' ↔ f.name ∈ names) →
    defaultResolvers? o { m with fields := some names' } = defaultResolvers? o m

section Covers

variable {o : ObjectType} {m : Model}

theorem covers_filter (distinct : (o.fields.map Field.name).Nodup) : Covers o m
    ⟨defaultsName o.name, (o.fields.filter (m.Has ·)).map fun f => (f.name, m.defaultResolver f)⟩ where
  name := rfl
  entries := by
    rw [List.forall₂_map_right_iff, List.forall₂_same]
    exact fun f _ => m.resolves_defaultResolver f
  once := by
    rw [List.map_map]
    exact distinct.sublist (List.filter_sublist.map _)
  listed names listed := by
    rw [List.map_map, List.filter_map]
    congr 1
    exact List.filter_congr fun f _ => by
      rw [Bool.eq_iff_iff, decide_eq_true_iff, Model.has_iff_of_listed listed]
      simp

/-- Models that have the same fields of an object and the same name have the same default resolvers. -/
theorem defaultResolvers?_congr {m' : Model} (name : m'.typeName = m.typeName)
    (same : ∀ f ∈ o.fields, m'.Has f ↔ m.Has f) : defaultResolvers? o m' = defaultResolvers? o m := by
  have absent : (∀ f ∈ o.fields, ¬m'.Has f) ↔ ∀ f ∈ o.fields, ¬m.Has f :=
    forall₂_congr fun f hf => not_congr (same f hf)
  have fields : o.fields.filter (m'.Has ·) = o.fields.filter (m.Has ·) :=
    List.filter_congr fun f hf => by rw [decide_eq_decide]; exact same f hf
  have texts : ∀ f, m'.defaultResolver f = m.defaultResolver f := fun f => by
    rw [Model.defaultResolver_eq, Model.defaultResolver_eq, name]
  rw [defaultResolvers?_eq, defaultResolvers?_eq, fields]
  simp only [absent, texts]

/-- The default resolvers of every object cover exactly the fields that its model has. -/
theorem defaults_cover (distinct : (o.fields.map Field.name).Nodup) : DefaultsCover o m where
  absent := by
    rw [defaultResolvers?_eq]
    simp
  covers c present := by
    rw [defaultResolvers?_eq] at present
    split at present
    · cases present
    · cases present
      exact covers_filter distinct
  insensitive names names' listed same := by
    have listed' : { m with fields := some names' }.fields = some names' := rfl
    refine defaultResolvers?_congr rfl fun f hf => ?_
    rw [Model.has_iff_of_listed listed, Model.has_iff_of_listed listed']
    exact same f hf

end Covers

/-- An author with fields under several modifiers. -/
def author : ObjectType := ⟨"Author", [
  ⟨"id", ⟨"ID", .scalar, false, []⟩, []⟩,
  ⟨"born", ⟨"Date", .scalar, false, [.nonNull, .nullable]⟩, []⟩,
  ⟨"books", ⟨"Book", .object, true, [.nonNull]⟩, []⟩,
  ⟨"genre", ⟨"Genre", .enum, true, []⟩, []⟩], []⟩

/-- A model that lists fields of an author out of order, twice, and along with others. -/
def authorRecord : Model := ⟨"AuthorRecord", "./records", some ["genre", "books", "shelf", "id", "genre"]⟩

theorem author_defaults_cover : (author.fields.map Field.name).Nodup ∧ DefaultsCover author authorRecord ∧
    DefaultsCover author { authorRecord with fields := none } := by
  have distinct : (author.fields.map Field.name).Nodup := by decide
  exact ⟨distinct, defaults_cover distinct, defaults_cover distinct⟩

example : defaultResolvers? author authorRecord = some ⟨"AuthorDefaultResolvers", [
    ("id", "(parent: AuthorRecord) => parent.id"),
    ("books", "(parent: AuthorRecord) => parent.books"),
    ("genre", "(parent: AuthorRecord) => (parent.genre === undefined ? null : parent.genre)")]⟩ := by
  cbv

end SchemaTypings

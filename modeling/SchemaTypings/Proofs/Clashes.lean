import Mathlib
import SchemaTypings.Proofs.Names
import SchemaTypings.Proofs.Outcome
import SchemaTypings.Proofs.Traversal

/-!
# Declarations with one name

Which of the names that the unit of an entity declares can be equal. Names for fields and for the entity are made with
endings that tell them apart, so that two of them are equal only for fields whose names differ in nothing but the case
of their first letter. Input types keep the names that the schema gives them, and these may be anything.

- `SameUpToCase`, `capitalize_eq_iff`: what is lost of a name when its first letter is capitalized;
- `Purpose`: what a declaration is for. `Source.purposes` lists the declarations of an entity in their order, and
  `pairwise_purposes` says which two of them have one name;
- `Source.Projects`: everything in the declarations of an entity has a projection, so that they are rendered
  (`Source.Projects.content`);
- `clashes_reported`: then a name is reported exactly if it repeats, and it is the first one that does.
-/

namespace SchemaTypings

open TypeScript

/-! ## Names up to case -/

/-- Two names are equal up to the case of their first letter. -/
def SameUpToCase (m n : String) : Prop :=
  ∃ c d rest, m.toList = c :: rest ∧ n.toList = d :: rest ∧ c.toLower = d.toLower

theorem toNat_toUpper (c : Char) :
    c.toUpper.toNat = if 97 ≤ c.toNat ∧ c.toNat ≤ 122 then c.toNat - 32 else c.toNat := by
  have range : 'a'.val ≤ c.val ∧ c.val ≤ 'z'.val ↔ 97 ≤ c.toNat ∧ c.toNat ≤ 122 := by
    simp [UInt32.le_iff_toNat_le]
  unfold Char.toUpper
  split
  · rename_i lower
    have bounds := range.1 lower
    have shifted : (c.val + ('A'.val - 'a'.val)).toNat = (c.toNat + 4294967264) % 4294967296 := UInt32.toNat_add _ _
    rw [if_pos bounds, ← Char.toNat_val, shifted]
    omega
  · rename_i other
    rw [if_neg fun h => other (range.2 h)]

theorem toNat_toLower (c : Char) :
    c.toLower.toNat = if 65 ≤ c.toNat ∧ c.toNat ≤ 90 then c.toNat + 32 else c.toNat := by
  have range : c.val ≥ 'A'.val ∧ c.val ≤ 'Z'.val ↔ 65 ≤ c.toNat ∧ c.toNat ≤ 90 := by
    simp [UInt32.le_iff_toNat_le]
  unfold Char.toLower
  split
  · rename_i upper
    have bounds := range.1 upper
    have shifted : (c.val + ('a'.val - 'A'.val)).toNat = (c.toNat + 32) % 4294967296 := UInt32.toNat_add _ _
    rw [if_pos bounds, ← Char.toNat_val, shifted]
    omega
  · rename_i other
    rw [if_neg fun h => other (range.2 h)]

/-- Two characters have one capital if and only if they have one small letter. -/
theorem toUpper_eq_iff {c d : Char} : c.toUpper = d.toUpper ↔ c.toLower = d.toLower := by
  simp only [← Char.toNat_inj, toNat_toUpper, toNat_toLower]
  split_ifs <;> omega

/-- A name starts with an ASCII character, which has a single capital. -/
theorem toList_capitalize {n : String} (h : Sdl.IsName n) :
    ∃ c rest, n.toList = c :: rest ∧ (Text.capitalize n).toList = c.toUpper :: rest := by
  obtain ⟨c, rest, chars, start, -⟩ := h
  have ascii : c.toNat < 128 := by
    simp only [Sdl.isNameStart, Char.isAlpha, Char.isUpper, Char.isLower, Bool.or_eq_true, Bool.and_eq_true,
      decide_eq_true_eq, beq_iff_eq, UInt32.le_iff_toNat_le, ge_iff_le, Char.toNat_val] at start
    rcases start with (upper | lower) | rfl
    · exact Nat.lt_of_le_of_lt upper.2 (by decide)
    · exact Nat.lt_of_le_of_lt lower.2 (by decide)
    · decide
  refine ⟨c, rest, chars, ?_⟩
  simp [Text.capitalize, chars, Text.uppercase, ascii]

theorem capitalize_eq_iff {m n : String} (hm : Sdl.IsName m) (hn : Sdl.IsName n) :
    Text.capitalize m = Text.capitalize n ↔ SameUpToCase m n := by
  obtain ⟨c, rest, hc, capital⟩ := toList_capitalize hm
  obtain ⟨d, rest', hd, capital'⟩ := toList_capitalize hn
  rw [← String.toList_inj, capital, capital', List.cons.injEq, toUpper_eq_iff, SameUpToCase]
  constructor
  · rintro ⟨letter, rfl⟩
    exact ⟨c, d, rest, hc, hd, letter⟩
  · rintro ⟨c', d', rest'', hc', hd', letter⟩
    obtain ⟨rfl, rfl⟩ := List.cons.inj (hc.symm.trans hc')
    obtain ⟨rfl, rfl⟩ := List.cons.inj (hd.symm.trans hd')
    exact ⟨letter, rfl⟩

/-! ## Names with endings -/

/-- Texts are different if neither of their endings is one of the other. -/
theorem append_ne_append {s t : String} (h : ¬(s.toList <:+ t.toList ∨ t.toList <:+ s.toList)) (m n : String) :
    m ++ s ≠ n ++ t := by
  intro same
  have ending : s.toList <:+ (m ++ s).toList := ⟨m.toList, (String.toList_append).symm⟩
  have ending' : t.toList <:+ (m ++ s).toList := ⟨n.toList, by rw [same, String.toList_append]⟩
  exact h (List.suffix_or_suffix_of_suffix ending ending')

@[simp] theorem argumentsName_ne_resolverName (f g : Field) : f.argumentsName ≠ g.resolverName :=
  append_ne_append (by decide) _ _

@[simp] theorem argumentsName_ne_aggregateName (f : Field) (n : String) : f.argumentsName ≠ aggregateName n :=
  append_ne_append (by decide) _ _

@[simp] theorem argumentsName_ne_defaultsName (f : Field) (n : String) : f.argumentsName ≠ defaultsName n :=
  append_ne_append (by decide) _ _

@[simp] theorem resolverName_ne_aggregateName (f : Field) (n : String) : f.resolverName ≠ aggregateName n :=
  append_ne_append (by decide) _ _

@[simp] theorem resolverName_ne_defaultsName (f : Field) (n : String) : f.resolverName ≠ defaultsName n :=
  append_ne_append (by decide) _ _

/-- Here one ending is that of the other, but both names begin with the same one. -/
@[simp] theorem aggregateName_ne_defaultsName (n : String) : aggregateName n ≠ defaultsName n := fun same =>
  absurd ((String.append_right_inj n).1 same) (by decide)

section Fields

variable {f g : Field} (hf : Sdl.IsName f.name) (hg : Sdl.IsName g.name)

include hf hg

theorem argumentsName_eq_iff : f.argumentsName = g.argumentsName ↔ SameUpToCase f.name g.name := by
  rw [← capitalize_eq_iff hf hg]
  exact String.append_left_inj "Args"

theorem resolverName_eq_iff : f.resolverName = g.resolverName ↔ SameUpToCase f.name g.name := by
  rw [← capitalize_eq_iff hf hg]
  exact String.append_left_inj "Resolver"

end Fields

/-! ## Declarations by purpose -/

/-- What the unit of an entity declares a name for. -/
inductive Purpose where
  | input (name : String)
  | arguments (f : Field)
  | resolver (f : Field)
  | aggregate
  | defaults

/-- The name that is declared for a purpose. -/
def Purpose.name (e : Entity) : Purpose → String
  | .input n => n
  | .arguments f => f.argumentsName
  | .resolver f => f.resolverName
  | .aggregate => aggregateName e.name
  | .defaults => defaultsName e.name

/-- Two fields of an entity, one behind the other, have names that are equal up to case. -/
def Entity.Similar (e : Entity) (f g : Field) : Prop := [f, g].Sublist e.fields ∧ SameUpToCase f.name g.name

/-- The purposes for which two declarations have one name: both are for arguments or both for resolvers of similar
fields, or one of them is for an input type that is named like something else. -/
def Purpose.Collides (e : Entity) : Purpose → Purpose → Prop
  | .arguments f, .arguments g | .resolver f, .resolver g => e.Similar f g
  | .input _, .input _ => False
  | .input n, p => n = p.name e
  | _, _ => False

/-- Without an input type it takes similar fields. -/
theorem Purpose.Collides.exists_similar {e : Entity} {p q : Purpose} (h : p.Collides e q)
    (own : ∀ n, p ≠ .input n) : ∃ f g, e.Similar f g := by
  cases p with
  | input n => exact absurd rfl (own n)
  | arguments f =>
    cases q with
    | arguments g => exact ⟨f, g, h⟩
    | _ => exact h.elim
  | resolver f =>
    cases q with
    | resolver g => exact ⟨f, g, h⟩
    | _ => exact h.elim
  | aggregate | defaults => exact h.elim

namespace Source

variable (src : Source)

/-- What the unit of an entity declares names for beside its input types. -/
def ownPurposes (e : Entity) : List Purpose :=
  (e.fields.filter fun f => !f.arguments.isEmpty).map .arguments ++ e.fields.map .resolver ++ [.aggregate] ++
    if src.emitsDefaults e then [.defaults] else []

/-- What the unit of an entity declares names for, in the order of its declarations. -/
def purposes (e : Entity) : List Purpose := (src.schema.firstUses e.fields).map .input ++ src.ownPurposes e

variable {src}

theorem map_name_ownPurposes (e : Entity) : (src.ownPurposes e).map (Purpose.name e) = src.ownNames e := by
  unfold ownPurposes ownNames
  split <;> simp [Purpose.name, Function.comp_def]

theorem map_name_purposes (e : Entity) :
    (src.purposes e).map (Purpose.name e) = src.schema.firstUses e.fields ++ src.ownNames e := by
  rw [purposes, List.map_append, map_name_ownPurposes, List.map_map]
  congr 1
  exact List.map_id _

theorem input_not_own {e : Entity} {n : String} : .input n ∉ src.ownPurposes e := by
  unfold ownPurposes
  split <;> simp

section Names

variable {e : Entity} (names : ∀ f ∈ e.fields, Sdl.IsName f.name)

include names

theorem pairwise_ownPurposes :
    (src.ownPurposes e).Pairwise fun p q => p.name e = q.name e ↔ p.Collides e q := by
  have similar : ∀ {f g : Field}, [f, g].Sublist e.fields → (e.Similar f g ↔ SameUpToCase f.name g.name) :=
    fun h => and_iff_right h
  have isNames : ∀ {f g : Field}, [f, g].Sublist e.fields → Sdl.IsName f.name ∧ Sdl.IsName g.name := fun h =>
    ⟨names _ (h.subset (by simp)), names _ (h.subset (by simp))⟩
  have arguments : ((e.fields.filter fun f => !f.arguments.isEmpty).map Purpose.arguments).Pairwise fun p q =>
      p.name e = q.name e ↔ p.Collides e q := by
    rw [List.pairwise_map, List.pairwise_iff_forall_sublist]
    intro f g h
    have h := h.trans List.filter_sublist
    exact (argumentsName_eq_iff (isNames h).1 (isNames h).2).trans (similar h).symm
  have resolvers : (e.fields.map Purpose.resolver).Pairwise fun p q => p.name e = q.name e ↔ p.Collides e q := by
    rw [List.pairwise_map, List.pairwise_iff_forall_sublist]
    intro f g h
    exact (resolverName_eq_iff (isNames h).1 (isNames h).2).trans (similar h).symm
  have aggregate : [Purpose.aggregate].Pairwise fun p q => p.name e = q.name e ↔ p.Collides e q :=
    List.pairwise_singleton _ _
  have defaults : (if src.emitsDefaults e then [Purpose.defaults] else []).Pairwise
      fun p q => p.name e = q.name e ↔ p.Collides e q := by
    split
    · exact List.pairwise_singleton _ _
    · exact List.Pairwise.nil
  -- the remaining pairs are of different kinds, and their names have different endings
  refine List.pairwise_append.2 ⟨List.pairwise_append.2 ⟨List.pairwise_append.2 ⟨arguments, resolvers, ?_⟩,
    aggregate, ?_⟩, defaults, ?_⟩
  · intro p hp q hq
    obtain ⟨f, -, rfl⟩ := List.mem_map.1 hp
    obtain ⟨g, -, rfl⟩ := List.mem_map.1 hq
    simp [Purpose.name, Purpose.Collides]
  · intro p hp q hq
    obtain rfl := List.mem_singleton.1 hq
    simp only [List.mem_append, List.mem_map] at hp
    rcases hp with ⟨f, -, rfl⟩ | ⟨f, -, rfl⟩ <;> simp [Purpose.name, Purpose.Collides]
  · intro p hp q hq
    have last : q = .defaults := by
      split at hq
      · exact List.mem_singleton.1 hq
      · cases hq
    subst last
    simp only [List.mem_append, List.mem_map, List.mem_singleton] at hp
    rcases hp with (⟨f, -, rfl⟩ | ⟨f, -, rfl⟩) | rfl <;> simp [Purpose.name, Purpose.Collides]

/-- Two declarations of an entity have one name if and only if their purposes collide. -/
theorem pairwise_purposes : (src.purposes e).Pairwise fun p q => p.name e = q.name e ↔ p.Collides e q := by
  refine List.pairwise_append.2 ⟨?_, pairwise_ownPurposes names, ?_⟩
  · rw [List.pairwise_map]
    refine nodup_preorder.imp fun h => ?_
    simpa [Purpose.name, Purpose.Collides] using h
  · intro p hp q hq
    obtain ⟨n, -, rfl⟩ := List.mem_map.1 hp
    cases q with
    | input m => exact absurd hq input_not_own
    | _ => rfl

/-- The names that an entity declares for itself are distinct if and only if no two of its fields are similar. -/
theorem nodup_ownNames_iff : (src.ownNames e).Nodup ↔ ¬∃ f g, e.Similar f g := by
  rw [← map_name_ownPurposes, List.Nodup, List.pairwise_map]
  constructor
  · rintro distinct ⟨f, g, both, same⟩
    -- every field has a resolver, so similar ones are a pair of those
    have resolvers : [Purpose.resolver f, Purpose.resolver g].Sublist (src.ownPurposes e) :=
      (((both.map Purpose.resolver).trans (List.sublist_append_right _ _)).trans (List.sublist_append_left _ _)).trans
        (List.sublist_append_left _ _)
    have collide := List.pairwise_iff_forall_sublist.1 (pairwise_ownPurposes names) resolvers
    exact List.pairwise_iff_forall_sublist.1 distinct resolvers (collide.2 ⟨both, same⟩)
  · intro none
    refine (pairwise_ownPurposes names).imp_of_mem fun {p q} hp _ h same => none ?_
    refine (h.1 same).exists_similar fun n input => ?_
    exact input_not_own (input ▸ hp)

end Names

end Source

/-! ## Entities that are rendered -/

section Rendering

variable {src : Source} {a : Associations} {e : Entity}

/-- Everything that stands in the declarations of an entity has a projection: its own values, the types of its fields,
arguments and input types, and for an object those that it may be told apart from. -/
structure Source.Projects (src : Source) (a : Associations) (e : Entity) : Prop where
  values : ∃ t, (src.projection a).entityType e = .ok t
  fields : ∀ f ∈ e.fields, ∀ r ∈ f.references, ∃ t, (src.projection a).project r = .ok t
  inputs : ∀ n i, src.schema.Leads e n → src.schema.input? n = some i →
    ∀ b ∈ i.fields, ∃ t, (src.projection a).project b.type = .ok t
  possible : ∀ o b, e = .object o → src.schema.Possible a.Expands o b →
    ∃ t, (src.projection a).objectType b.name = .ok t

theorem exists_inputMembers {p : Projection} {as : List Argument} (h : ∀ b ∈ as, ∃ t, p.project b.type = .ok t) :
    ∃ ms, p.inputMembers as = .ok ms :=
  mapM_isOk fun b hb => by
    obtain ⟨t, ht⟩ := h b hb
    exact ⟨_, bind_eq_ok.2 ⟨t, ht, rfl⟩⟩

theorem Source.Projects.exists_typeMembers (projects : src.Projects a e) (built : Associations.build src.schema = .ok a)
    (he : e ∈ src.schema.entities) (context : TypeExpr) :
    ∃ ms, (src.projection a).typeMembers context e = .ok ms := by
  obtain ⟨values, hv⟩ := projects.values
  cases e with
  | object o =>
    have ho : o ∈ src.schema.objects := Schema.mem_objects.2 (Schema.mem_entities.1 he)
    obtain ⟨ns, hns, -, possible⟩ := possibleTypes_eq (tables_of_build built) ho
      fun n hn => defines_interface_of_build built ho hn
    have each : ∀ n ∈ ns, ∃ t, (src.projection a).objectType n = .ok t := fun n hn => by
      obtain ⟨b, hb, rfl⟩ := (possible n).1 hn
      exact projects.possible o b rfl hb
    obtain ⟨ts, hts⟩ := mapM_isOk each
    by_cases none : ns.isEmpty = true
    · exact ⟨_, bind_eq_ok.2 ⟨ns, hns, if_pos none⟩⟩
    · exact ⟨_, bind_eq_ok.2 ⟨ns, hns, (if_neg none).trans (bind_eq_ok.2 ⟨ts, hts, rfl⟩)⟩⟩
  | interface i =>
    obtain ⟨os, hos, hv⟩ := bind_eq_ok.1 hv
    exact ⟨_, bind_eq_ok.2 ⟨os, hos, bind_eq_ok.2 ⟨values, hv, rfl⟩⟩⟩
  | union w =>
    obtain ⟨os, hos, hv⟩ := bind_eq_ok.1 hv
    exact ⟨_, bind_eq_ok.2 ⟨os, hos, bind_eq_ok.2 ⟨values, hv, rfl⟩⟩⟩

/-- Where everything has a projection, the declarations can be rendered. -/
theorem Source.Projects.exists_parts (projects : src.Projects a e) (built : Associations.build src.schema = .ok a)
    (he : e ∈ src.schema.entities) (context : TypeExpr) :
    Nonempty (EntityParts (src.projection a) context e) := by
  have t : Tables src.schema a := tables_of_build built
  obtain ⟨inputs, inputs_eq, -, known, reached⟩ := inputTypes_eq (p := src.projection a) t he
  obtain ⟨enums, enums_eq, -⟩ := enums_eq (p := src.projection a) t he inputs_eq
  have interfaces : ∀ i ∈ inputs, ∃ x, (src.projection a).inputInterface i = .ok x := fun i hi => by
    obtain ⟨ms, hms⟩ := exists_inputMembers
      (projects.inputs i.name i ((reached i.name).1 (List.mem_map_of_mem hi)) (known i hi))
    exact ⟨_, bind_eq_ok.2 ⟨ms, hms, rfl⟩⟩
  have arguments : ∀ f ∈ e.fields.filter fun f => !f.arguments.isEmpty,
      ∃ x, (src.projection a).argumentsInterface f = .ok x := fun f hf => by
    obtain ⟨ms, hms⟩ := exists_inputMembers fun b hb =>
      projects.fields f (List.mem_of_mem_filter hf) b.type (List.mem_cons_of_mem _ (List.mem_map_of_mem hb))
    exact ⟨_, bind_eq_ok.2 ⟨ms, hms, rfl⟩⟩
  obtain ⟨parent, parent_eq⟩ := projects.values
  have resolvers : ∀ f ∈ e.fields, ∃ x, (src.projection a).resolverAlias ⟨parent, context⟩ e f = .ok x := fun f hf => by
    obtain ⟨t, ht⟩ := projects.fields f hf f.type List.mem_cons_self
    exact ⟨_, bind_eq_ok.2 ⟨t, ht, rfl⟩⟩
  obtain ⟨inputInterfaces, inputInterfaces_eq⟩ := mapM_isOk interfaces
  obtain ⟨argumentInterfaces, argumentInterfaces_eq⟩ := mapM_isOk arguments
  obtain ⟨aliases, resolvers_eq⟩ := mapM_isOk resolvers
  obtain ⟨typeMembers, typeMembers_eq⟩ := projects.exists_typeMembers built he context
  exact ⟨⟨inputs, enums, inputInterfaces, argumentInterfaces, parent, aliases, typeMembers, inputs_eq, enums_eq,
    inputInterfaces_eq, argumentInterfaces_eq, parent_eq, resolvers_eq, typeMembers_eq⟩⟩

end Rendering

/-! ## The name that is reported -/

/-- Only one name can be the first that repeats. -/
theorem FirstRepeat.unique {ns : List String} {m n : String} (hm : FirstRepeat [] ns m) (hn : FirstRepeat [] ns n) :
    m = n := by
  have repeats : ∀ {before between : List String} {m : String}, m ∈ before → ¬(before ++ m :: between).Nodup :=
    fun hm distinct => (List.nodup_append.1 distinct).2.2 _ hm _ List.mem_cons_self rfl
  obtain ⟨before, after, rfl, ⟨distinct, -⟩, hm⟩ := hm
  obtain ⟨before', after', same, ⟨distinct', -⟩, hn⟩ := hn
  have hm : m ∈ before := by simpa using hm
  have hn : n ∈ before' := by simpa using hn
  rcases List.append_eq_append_iff.1 same with ⟨between, rfl, rest⟩ | ⟨between, rfl, rest⟩
  · cases between with
    | nil => exact (List.cons.inj rest).1
    | cons k between =>
      obtain ⟨rfl, -⟩ := List.cons.inj rest
      exact absurd distinct' (repeats hm)
  · cases between with
    | nil => exact (List.cons.inj rest).1.symm
    | cons k between =>
      obtain ⟨rfl, -⟩ := List.cons.inj rest
      exact absurd distinct (repeats hn)

section Reports

variable {src : Source} {a : Associations} (distinct : (src.schema.definitions.map Definition.name).Nodup)
  (built : Associations.build src.schema = .ok a) {e : Entity} (he : e ∈ src.schema.entities)

include distinct built he

/-- The input types of an entity are declared in the order of their first uses. -/
theorem declaredNames_eq {is : List InputType} (his : (src.projection a).inputTypes e = .ok is) :
    (src.projection a).declaredNames src.switches e is = (src.purposes e).map (Purpose.name e) := by
  have t : Tables src.schema a := tables_of_build built
  have order : is.map InputType.name = src.schema.firstUses e.fields := by
    rcases Schema.union_or_owner he with ⟨w, rfl⟩ | ⟨owner, hp⟩
    · cases his
      exact preorderFrom_nil.symm
    · obtain ⟨ns, listed, walk⟩ := t.inputsOf_eq distinct hp
      have loop : ns.mapM a.inputType = .ok is := by
        cases e with
        | union w => exact absurd rfl (owner w)
        | _ =>
          obtain ⟨ns', listed', loop⟩ := bind_eq_ok.1 his
          cases listed.symm.trans listed'
          exact loop
      rw [t.map_name_of_inputTypes loop, (reachableInputs_eq_ok.1 walk).1]
  rw [Projection.declaredNames, Source.ownNames_eq, Source.map_name_purposes, order]

variable (projects : src.Projects a e)

include projects

/-- A fault of an entity whose declarations can be rendered is that of the first name that repeats. -/
theorem build_eq_error_iff {f : Fault} :
    EntityDeclarations.build (src.projection a) src.contextType src.switches e = .error f ↔
      ∃ n, FirstRepeat [] ((src.purposes e).map (Purpose.name e)) n ∧ f = .duplicateDeclaration e.name n := by
  obtain ⟨x⟩ := projects.exists_parts built he src.contextType
  have content := x.content_eq src.switches
  have order := declaredNames_eq distinct built he x.inputs_eq
  have sound : ∀ {f}, EntityDeclarations.build (src.projection a) src.contextType src.switches e = .error f →
      ∃ n, FirstRepeat [] ((src.purposes e).map (Purpose.name e)) n ∧ f = .duplicateDeclaration e.name n := by
    intro f h
    rcases EntityDeclarations.build_eq_error h with h | ⟨is, n, his, hn, rfl⟩
    · cases content.symm.trans h
    · cases x.inputs_eq.symm.trans his
      exact ⟨n, order ▸ hn, rfl⟩
  refine ⟨sound, ?_⟩
  rintro ⟨n, hn, rfl⟩
  cases h : EntityDeclarations.build (src.projection a) src.contextType src.switches e with
  | ok built =>
    obtain ⟨⟨is, his, nodup⟩, -⟩ := EntityDeclarations.build_eq_ok.1 h
    cases x.inputs_eq.symm.trans his
    rw [order] at nodup
    exact absurd hn.duplicate (by have := List.nodup_iff_count_le_one.1 nodup n; omega)
  | error f =>
    obtain ⟨m, hm, rfl⟩ := sound h
    rw [hm.unique hn]

omit distinct in
/-- The declarations of an entity have distinct names if and only if no two of its fields are similar and none of its
input types is named like something else. -/
theorem build_isOk_iff (names : ∀ f ∈ e.fields, Sdl.IsName f.name) :
    (∃ b, EntityDeclarations.build (src.projection a) src.contextType src.switches e = .ok b) ↔
      ¬((∃ f g, e.Similar f g) ∨ ∃ n, src.schema.Leads e n ∧ n ∈ src.ownNames e) := by
  have t : Tables src.schema a := tables_of_build built
  obtain ⟨x⟩ := projects.exists_parts built he src.contextType
  have nodup := Source.nodup_declaredNames_iff t he x.inputs_eq
  have own : (∀ n, ¬2 ≤ (src.ownNames e).count n) ↔ ¬∃ f g, e.Similar f g := by
    rw [← src.nodup_ownNames_iff names, List.nodup_iff_count_le_one]
    exact forall_congr' fun n => by omega
  constructor
  · rintro ⟨b, h⟩
    obtain ⟨⟨is, his, distinctly⟩, -⟩ := EntityDeclarations.build_eq_ok.1 h
    cases x.inputs_eq.symm.trans his
    have none := nodup.1 distinctly
    rintro (similar | ⟨n, leads, hn⟩)
    · exact own.1 (fun n twice => none n (.inr twice)) similar
    · exact none n (.inl ⟨leads, hn⟩)
  · intro none
    obtain ⟨dissimilar, apart⟩ := not_or.1 none
    have distinctly := nodup.2 fun n => by
      rintro (both | twice)
      · exact apart ⟨n, both⟩
      · exact own.2 dissimilar n twice
    exact ⟨_, EntityDeclarations.build_eq_ok.2 ⟨⟨x.inputs, x.inputs_eq, distinctly⟩, x.content_eq src.switches⟩⟩

end Reports

/-- Where everything in the declarations of an entity has a projection and its fields have names, the entity is refused
for a repeated name exactly if two of its fields have names that are equal up to case, or one of its input types is
named like the arguments or the resolver of a field, like its aggregate or like its default resolvers. No other two of
its declarations can have one name. The fault names the entity and the first name that repeats, in the order of the
declarations. -/
theorem clashes_reported {src : Source} {a : Associations}
    (distinct : (src.schema.definitions.map Definition.name).Nodup) (built : Associations.build src.schema = .ok a)
    {e : Entity} (he : e ∈ src.schema.entities) (names : ∀ f ∈ e.fields, Sdl.IsName f.name)
    (projects : src.Projects a e) :
    ((∃ x n, EntityDeclarations.build (src.projection a) src.contextType src.switches e =
        .error (.duplicateDeclaration x n)) ↔
      (∃ f g, e.Similar f g) ∨ ∃ n, src.schema.Leads e n ∧ n ∈ src.ownNames e) ∧
    ((src.purposes e).Pairwise fun p q => p.name e = q.name e ↔ p.Collides e q) ∧
    ∀ f, EntityDeclarations.build (src.projection a) src.contextType src.switches e = .error f ↔
      ∃ n, FirstRepeat [] ((src.purposes e).map (Purpose.name e)) n ∧ f = .duplicateDeclaration e.name n := by
  have reported := fun f => build_eq_error_iff distinct built he projects (f := f)
  refine ⟨?_, Source.pairwise_purposes names, reported⟩
  have accepted := build_isOk_iff built he projects names
  constructor
  · rintro ⟨x, n, h⟩
    by_contra none
    obtain ⟨b, hb⟩ := accepted.2 none
    cases hb.symm.trans h
  · intro clash
    cases h : EntityDeclarations.build (src.projection a) src.contextType src.switches e with
    | ok b => exact absurd clash (accepted.1 ⟨b, h⟩)
    | error f =>
      obtain ⟨n, -, rfl⟩ := (reported f).1 h
      exact ⟨e.name, n, rfl⟩

/-- A query with two fields that differ in the case of a letter, and with an input type that has the name of its
aggregate. -/
def postsQuery : ObjectType := ⟨"Query", [
  ⟨"posts", .named "String" .scalar, [⟨"by", .named "QueryResolvers" .input⟩]⟩,
  ⟨"Posts", .named "Int" .scalar, [⟨"first", .named "Int" .scalar⟩]⟩], []⟩

/-- A source with `postsQuery` and the input type. -/
def postsSource : Source :=
  ⟨⟨[.object postsQuery, .input ⟨"QueryResolvers", [⟨"not", .named "QueryResolvers" .input⟩]⟩], .standard⟩, .empty,
    none, .off⟩

/-- The tables of `postsSource`. -/
def postsTables : Associations where
  inputTypes := ⟨[("QueryResolvers", ⟨"QueryResolvers", [⟨"not", .named "QueryResolvers" .input⟩]⟩)]⟩
  inputsByOwner := ⟨[("Query", ["QueryResolvers"])]⟩
  implementorsByInterface := ⟨[]⟩
  membersByUnion := ⟨[]⟩
  unionsByMember := ⟨[("Query", [])]⟩
  enumsByOwner := ⟨[("Query", [])]⟩

theorem clashes_reported_posts : Associations.build postsSource.schema = .ok postsTables ∧
    EntityDeclarations.build (postsSource.projection postsTables) postsSource.contextType postsSource.switches
      (.object postsQuery) = .error (.duplicateDeclaration "Query" "PostsArgs") := by
  have built : Associations.build postsSource.schema = .ok postsTables := by cbv
  have plain : ∀ r : TypeRef, r.category = .scalar ∨ r.category = .input →
      ∃ t, (postsSource.projection postsTables).project r = .ok t := by
    rintro ⟨n, _, inner, layers⟩ (rfl | rfl) <;> exact ⟨_, rfl⟩
  have projects : postsSource.Projects postsTables (.object postsQuery) := {
    values := ⟨_, rfl⟩
    fields := fun f hf r hr => plain r ((by decide :
      ∀ f ∈ postsQuery.fields, ∀ r ∈ f.references, r.category = .scalar ∨ r.category = .input) f hf r hr)
    inputs := fun n i _ known b hb => plain b.type ((by decide :
      ∀ i ∈ postsSource.schema.inputs, ∀ b ∈ i.fields, b.type.category = .scalar ∨ b.type.category = .input)
        i (mem_of_lastOf known).1 b hb)
    possible := by
      rintro o b ⟨⟩ ⟨some, -⟩
      exact absurd rfl some }
  have names : ∀ f ∈ (Entity.object postsQuery).fields, Sdl.IsName f.name := by
    have tail : ∀ c ∈ "osts".toList, Sdl.isNamePart c = true := List.all_eq_true.1 (by decide)
    have spelled : Sdl.IsName "posts" ∧ Sdl.IsName "Posts" :=
      ⟨⟨'p', _, by decide, by decide, tail⟩, ⟨'P', _, by decide, by decide, tail⟩⟩
    simpa [Entity.fields, postsQuery] using spelled
  have order : (postsSource.purposes (.object postsQuery)).map (Purpose.name (.object postsQuery)) =
      ["QueryResolvers", "PostsArgs", "PostsArgs", "PostsResolver", "PostsResolver", "QueryResolvers"] := by cbv
  refine ⟨built, ((clashes_reported (by decide) built (by decide) names projects).2.2 _).2 ⟨"PostsArgs", ?_, rfl⟩⟩
  rw [order]
  exact ⟨["QueryResolvers", "PostsArgs"], _, rfl, ⟨by decide, by decide⟩, by decide⟩

end SchemaTypings

import Mathlib
import SchemaTypings.Proofs.Names
import SchemaTypings.Proofs.Outcome
import SchemaTypings.Proofs.UnitTexts
import SchemaTypings.Proofs.Writing

/-!
# The paths of units

- `paths_of_generate`: the paths of the generated units, and which of them are always written;
- `nodup_paths_iff`, `forced_paths_iff`: when the paths differ, and when those of the units that are always written
  differ from the paths of the enum unit and the root unit;
- `displaced_of_writeUnits`: a unit whose path is that of an entity is never written;
- `unit_paths_distinct_iff`: this and what writing does, for the units of a schema text. Its definitions have names
  without slashes, so every unit has a file of its own below the output directory.
-/

namespace SchemaTypings

/-! ## Paths of units -/

/-- The path of a unit is a name below any directory. -/
theorem isEntryName_unitPath {n : String} (h : Sdl.IsName n) : FileTree.IsEntryName (unitPath n) := by
  have suffix : (unitPath n).toList = n.toList ++ ['.', 't', 's'] := by simp [unitPath]
  have other : ∀ m : String, m.toList.length < 3 → unitPath n ≠ m := by
    rintro m short rfl
    simp only [suffix, List.length_append, List.length_cons, List.length_nil] at short
    omega
  refine ⟨?_, ?_, other ".." (by decide)⟩
  · rw [suffix]
    intro slash
    rcases List.mem_append.1 slash with slash | slash
    · exact absurd (h.parts '/' slash) (by decide)
    · exact absurd slash (by decide)
  · simp [FileTree.isIdle, other "" (by decide), other "." (by decide)]

/-- The names of the units of a schema, and whether they are always written: entities in the order of the schema, enums
if there are any, the root. -/
def Schema.unitNames (s : Schema) : List (String × Bool) :=
  s.entities.map (fun e => (e.name, true)) ++ (if s.enums = [] then [] else [(enumsUnit, false)]) ++ [(rootUnit, false)]

/-- The unit of the entity has the name of another unit. -/
def Schema.Displaces (s : Schema) (e : Entity) : Prop := e.name = rootUnit ∨ e.name = enumsUnit ∧ s.enums ≠ []

instance (s : Schema) (e : Entity) : Decidable (s.Displaces e) := inferInstanceAs (Decidable (_ ∨ _ ∧ _))

theorem map_fst_unitNames (s : Schema) : s.unitNames.map Prod.fst =
    s.entities.map Entity.name ++ (if s.enums = [] then [] else [enumsUnit]) ++ [rootUnit] := by
  unfold Schema.unitNames
  rw [List.map_append, List.map_append, List.map_map, apply_ite (List.map _)]
  rfl

theorem mem_unitNames {s : Schema} {n : String} : (n, true) ∈ s.unitNames ↔ ∃ e ∈ s.entities, e.name = n := by
  have enums : (n, true) ∉ if s.enums = [] then [] else [(enumsUnit, false)] := by
    split_ifs <;> simp
  unfold Schema.unitNames
  rw [List.mem_append, List.mem_append, or_iff_left (by simp), or_iff_left enums, List.mem_map]
  simp only [Prod.mk.injEq, and_true]

/-- No name is listed twice with one mode of writing. -/
theorem nodup_unitNames {s : Schema} (distinct : (s.entities.map Entity.name).Nodup) : s.unitNames.Nodup := by
  have entities : (s.entities.map fun e => (e.name, true)).Nodup := by
    have := distinct.map (f := fun n => (n, true)) fun m n h => (Prod.mk.inj h).1
    rwa [List.map_map] at this
  have fixed : enumsUnit ≠ rootUnit := by decide
  unfold Schema.unitNames
  by_cases none : s.enums = []
  · simp [none, List.nodup_append, entities]
  · simp [none, List.nodup_append, entities, fixed]

/-- Behind the unit of an entity its name is not listed with the same mode again. If the entity has the name of another
unit, it is listed with the other mode. -/
theorem exists_unitNames_split {s : Schema} (distinct : (s.entities.map Entity.name).Nodup) {e : Entity}
    (he : e ∈ s.entities) : ∃ front rest, s.unitNames = front ++ (e.name, true) :: rest ∧ (e.name, true) ∉ rest ∧
      (s.Displaces e → (e.name, false) ∈ rest) := by
  obtain ⟨es, es', split⟩ := List.append_of_mem he
  have cut : s.unitNames = es.map (fun e => (e.name, true)) ++ (e.name, true) ::
      (es'.map (fun e => (e.name, true)) ++ ((if s.enums = [] then [] else [(enumsUnit, false)]) ++
        [(rootUnit, false)])) := by
    simp [Schema.unitNames, split]
  have once := nodup_unitNames distinct
  rw [cut] at once
  refine ⟨_, _, cut, (List.nodup_cons.1 (List.nodup_append.1 once).2.1).1, ?_⟩
  rintro (root | ⟨enums, some⟩)
  · simp [root]
  · simp [enums, some]

section Units

variable {src : Source} {format : Formatter} {us : List OutputUnit}

/-- The paths of the generated units. -/
theorem paths_of_generate (generated : src.generate format = .ok us) :
    us.map (fun u => (u.path, u.forceOverwrite)) = src.schema.unitNames.map fun n => (unitPath n.1, n.2) := by
  obtain ⟨a, units, -, steps, rfl⟩ := eachUnit_of_generate generated (P := fun _ _ => True) fun _ _ _ _ _ _ => trivial
  have names : units.map EntityUnit.entity = src.schema.entities.map Entity.name := by
    rw [← List.forall₂_eq_eq_eq, List.forall₂_map_left_iff, List.forall₂_map_right_iff]
    refine (steps.imp fun e u step => ?_).flip
    obtain ⟨built, -, rest⟩ := bind_eq_ok.1 step.1
    obtain ⟨groups, -, rest⟩ := bind_eq_ok.1 rest
    cases rest
    rfl
  have entities : units.map (fun u => (u.output.path, u.output.forceOverwrite)) =
      src.schema.entities.map fun e => (unitPath e.name, true) := by
    have := congrArg (List.map fun n => (unitPath n, true)) names
    rwa [List.map_map, List.map_map] at this
  have enums : (enumsOutput src.schema.enums).map (fun u => (u.path, u.forceOverwrite)) =
      if src.schema.enums = [] then [] else [(unitPath enumsUnit, false)] := by
    unfold enumsOutput
    cases src.schema.enums <;> rfl
  have formatted : (fun u : OutputUnit => (u.path, u.forceOverwrite)) ∘ OutputUnit.formatted format =
      fun u => (u.path, u.forceOverwrite) := rfl
  rw [List.map_map, formatted, List.map_append, List.map_append, List.map_map, enums]
  unfold Schema.unitNames
  rw [List.map_append, List.map_append, List.map_map, apply_ite (List.map _)]
  exact congrArg (· ++ _ ++ _) entities

example : librarySchema.unitNames = [("Item", true), ("Book", true), ("Map", true), ("Find", true), ("Query", true),
    ("enums", false), ("index", false)] := by
  decide

/-- The units have different paths unless an entity has the name of the root unit or of the enum unit. -/
theorem nodup_paths_iff (distinct : (src.schema.entities.map Entity.name).Nodup)
    (generated : src.generate format = .ok us) :
    (us.map OutputUnit.path).Nodup ↔ ∀ e ∈ src.schema.entities, ¬src.schema.Displaces e := by
  have paths : us.map OutputUnit.path = (src.schema.unitNames.map Prod.fst).map unitPath := by
    have := congrArg (List.map Prod.fst) (paths_of_generate generated)
    rw [List.map_map, List.map_map] at this
    rw [List.map_map]
    exact this
  have fixed : enumsUnit ≠ rootUnit := by decide
  rw [paths, List.nodup_map_iff unitPath_injective, map_fst_unitNames]
  unfold Schema.Displaces
  by_cases none : src.schema.enums = []
  · simp [none, List.nodup_append, distinct]
  · simp [none, List.nodup_append, distinct, fixed, and_comm]

/-- A unit with the path of a name is found where the name is listed. -/
theorem exists_unit_iff {ns : List (String × Bool)}
    (listed : us.map (fun u => (u.path, u.forceOverwrite)) = ns.map fun n => (unitPath n.1, n.2)) {n : String}
    {forced : Bool} : (∃ u ∈ us, u.path = unitPath n ∧ u.forceOverwrite = forced) ↔ (n, forced) ∈ ns := by
  have injective : Function.Injective fun n : String × Bool => (unitPath n.1, n.2) :=
    unitPath_injective.prodMap Function.injective_id
  rw [← List.mem_map_of_injective injective, ← listed]
  simp only [List.mem_map, Prod.mk.injEq]

/-- The units that are always written are those of entities. -/
theorem exists_forced_iff (generated : src.generate format = .ok us) {n : String} :
    (∃ u ∈ us, u.path = unitPath n ∧ u.forceOverwrite = true) ↔ ∃ e ∈ src.schema.entities, e.name = n :=
  (exists_unit_iff (paths_of_generate generated)).trans mem_unitNames

/-- The units that are always written keep away from the paths of the others unless an entity has one of their names. -/
theorem forced_paths_iff (generated : src.generate format = .ok us) :
    (∀ u ∈ us, u.forceOverwrite = true → u.path ≠ unitPath enumsUnit ∧ u.path ≠ unitPath rootUnit) ↔
      ∀ e ∈ src.schema.entities, e.name ≠ enumsUnit ∧ e.name ≠ rootUnit := by
  constructor
  · intro apart e he
    obtain ⟨u, hu, path, forced⟩ := (exists_forced_iff generated).2 ⟨e, he, rfl⟩
    obtain ⟨enums, root⟩ := apart u hu forced
    rw [path] at enums root
    exact ⟨fun same => enums (same ▸ rfl), fun same => root (same ▸ rfl)⟩
  · intro other u hu forced
    constructor
    · intro path
      obtain ⟨e, he, name⟩ := (exists_forced_iff generated).1 ⟨u, hu, path, forced⟩
      exact (other e he).1 name
    · intro path
      obtain ⟨e, he, name⟩ := (exists_forced_iff generated).1 ⟨u, hu, path, forced⟩
      exact (other e he).2 name

/-- The unit of an entity with the name of another unit keeps that unit from being written. -/
theorem displaced_of_writeUnits (distinct : (src.schema.entities.map Entity.name).Nodup)
    (names : ∀ u ∈ us, FileTree.IsEntryName u.path) (generated : src.generate format = .ok us)
    {t t' : FileTree} {output : String} {s : Summary} (run : t.writeUnits output us = (.ok s, t')) {e : Entity}
    (he : e ∈ src.schema.entities) (displaces : src.schema.Displaces e) :
    ∃ u ∈ us, u.path = unitPath e.name ∧ u.forceOverwrite = true ∧
      t'.read (Path.join output u.path) = some u.content ∧ Path.join output u.path ∈ s.skipped := by
  obtain ⟨front, rest, cut, once, behind⟩ := exists_unitNames_split distinct he
  -- the unit of the entity, and the units behind it
  have listed := paths_of_generate generated
  rw [cut, List.map_append, List.map_cons] at listed
  obtain ⟨earlier, units, rfl, -, listed⟩ := List.map_eq_append_iff.1 listed
  obtain ⟨u, later, rfl, unit, listed⟩ := List.map_eq_cons_iff.1 listed
  obtain ⟨path, forced⟩ := Prod.mk.inj unit
  have unforced : ∀ v ∈ later, v.path = u.path → v.forceOverwrite = false := by
    intro v hv same
    by_contra forces
    exact once ((exists_unit_iff listed).1 ⟨v, hv, same.trans path, by simpa using forces⟩)
  obtain ⟨written, skips⟩ := FileTree.suppressed forced unforced names run
  obtain ⟨v, hv, same, -⟩ := (exists_unit_iff listed).2 (behind displaces)
  exact ⟨u, by simp, path, forced, written, skips v hv (same.trans path.symm)⟩

end Units

/-! ## Units of schema texts -/

/-- Every definition of a schema comes from a type definition of the document. -/
theorem Sdl.exists_type_of_mem {d : Document} {s : Schema} (accepted : d.schema = .ok s) {x : Definition}
    (hx : x ∈ s.definitions) : ∃ t ∈ d.types, t.name = x.name := by
  obtain ⟨r, rfl⟩ := exists_resolution accepted
  obtain ⟨y, hy, names, -, rfl⟩ := Resolution.exists_of_mem_schema hx
  obtain ⟨t, ht, resolves⟩ := r.exists_resolves hy
  exact ⟨t, ht, by rw [name_withImplementors, resolves.name]⟩

section Texts

variable {text : String} {d : Sdl.Document} {src : Source} {format : Formatter} {us : List OutputUnit}

/-- The units of a schema text have names for paths. -/
theorem isEntryName_of_generate (parsed : Sdl.Document.parse text = .ok d) (accepted : d.schema = .ok src.schema)
    (generated : src.generate format = .ok us) : ∀ u ∈ us, FileTree.IsEntryName u.path := by
  have entities : ∀ e ∈ src.schema.entities, Sdl.IsName e.name := by
    intro e he
    obtain ⟨t, ht, name⟩ := Sdl.exists_type_of_mem accepted (Schema.mem_entities.1 he)
    have : e.definition.name = e.name := by cases e <;> rfl
    rw [← this, ← name]
    exact Sdl.isName_of_parse parsed t ht
  have names : ∀ n ∈ src.schema.unitNames.map Prod.fst, Sdl.IsName n := by
    intro n hn
    rw [map_fst_unitNames, List.mem_append, List.mem_append, List.mem_map, List.mem_singleton] at hn
    rcases hn with (⟨e, he, rfl⟩ | hn) | rfl
    · exact entities e he
    · split_ifs at hn
      · cases hn
      · obtain rfl := List.mem_singleton.1 hn
        exact ⟨'e', "nums".toList, by decide, by decide, List.all_eq_true.1 (by decide)⟩
    · exact ⟨'i', "ndex".toList, by decide, by decide, List.all_eq_true.1 (by decide)⟩
  intro u hu
  have listed : (u.path, u.forceOverwrite) ∈ us.map fun u => (u.path, u.forceOverwrite) := List.mem_map.2 ⟨u, hu, rfl⟩
  rw [paths_of_generate generated] at listed
  obtain ⟨n, hn, same⟩ := List.mem_map.1 listed
  have path : unitPath n.1 = u.path := congrArg Prod.fst same
  rw [← path]
  exact isEntryName_unitPath (names n.1 (List.mem_map.2 ⟨n, hn, rfl⟩))

/-- The units of a schema text have different paths if and only if no entity has the name of the root unit, or of the
enum unit while there is one; and those that are always written keep away from the paths of both units if and only if no
entity has one of their names. When the paths differ, no unit gets in the way of another when they are written. When an
entity has the name of another unit, that unit is never written: its path is skipped and holds the unit of the entity,
whatever was there before. -/
theorem unit_paths_distinct_iff (parsed : Sdl.Document.parse text = .ok d) (accepted : d.schema = .ok src.schema)
    (distinct : (d.types.map Sdl.TypeDefinition.name).Nodup) (generated : src.generate format = .ok us) :
    us.map (fun u => (u.path, u.forceOverwrite)) = src.schema.unitNames.map (fun n => (unitPath n.1, n.2)) ∧
    ((us.map OutputUnit.path).Nodup ↔ ∀ e ∈ src.schema.entities, ¬src.schema.Displaces e) ∧
    ((∀ u ∈ us, u.forceOverwrite = true → u.path ≠ unitPath enumsUnit ∧ u.path ≠ unitPath rootUnit) ↔
      ∀ e ∈ src.schema.entities, e.name ≠ enumsUnit ∧ e.name ≠ rootUnit) ∧
    ∀ (t t' : FileTree) (output : String) (s : Summary), t.writeUnits output us = (.ok s, t') →
      ((us.map OutputUnit.path).Nodup → ∀ u ∈ us, FileTree.Settled t t' output u) ∧
      ∀ e ∈ src.schema.entities, src.schema.Displaces e → ∃ u ∈ us, u.path = unitPath e.name ∧ u.forceOverwrite = true ∧
        t'.read (Path.join output u.path) = some u.content ∧ Path.join output u.path ∈ s.skipped := by
  have entities : (src.schema.entities.map Entity.name).Nodup :=
    Schema.nodup_entities (Sdl.schema_unambiguous accepted distinct).distinct
  have names := isEntryName_of_generate parsed accepted generated
  refine ⟨paths_of_generate generated, nodup_paths_iff entities generated, forced_paths_iff generated, ?_⟩
  intro t t' output s run
  exact ⟨fun nodup => FileTree.settled names nodup run,
    fun e he displaces => displaced_of_writeUnits entities names generated run he displaces⟩

end Texts

/-- The text of a schema with an enum. -/
def genresText : String := "enum Genre \x7b POETRY PROSE \x7d type Query \x7b genre: Genre \x7d"

/-- The document of `genresText`. -/
def genresDocument : Sdl.Document := ⟨[
  .definition (.enum "Genre" ["POETRY", "PROSE"]),
  .definition (.object "Query" [] [⟨"genre", .named "Genre" false, []⟩])]⟩

/-- The schema of `genresText`, without any models or context type. -/
def genresSource : Source := ⟨⟨[
  .enum ⟨"Genre", ["POETRY", "PROSE"]⟩,
  .object ⟨"Query", [⟨"genre", ⟨"Genre", .enum, true, []⟩, []⟩], []⟩], .standard⟩, .empty, none, .off⟩

theorem unit_paths_distinct_iff_genres : Sdl.Document.parse genresText = .ok genresDocument ∧
    ∃ us, genresSource.generate .passthrough = .ok us ∧ (us.map OutputUnit.path).Nodup ∧
      (∀ u ∈ us, u.forceOverwrite = true → u.path ≠ unitPath enumsUnit ∧ u.path ≠ unitPath rootUnit) ∧
      ∀ (t t' : FileTree) (output : String) (s : Summary), t.writeUnits output us = (.ok s, t') →
        ∀ u ∈ us, FileTree.Settled t t' output u := by
  have parsed : Sdl.Document.parse genresText = .ok genresDocument := by cbv
  have accepted : genresDocument.schema = .ok genresSource.schema := by decide
  have generates : ∃ us, genresSource.generate .passthrough = .ok us :=
    exists_generate (Sdl.schema_consistent accepted) .passthrough (by decide) (by decide +kernel)
  obtain ⟨us, generated⟩ := generates
  obtain ⟨-, nodup, forced, runs⟩ := unit_paths_distinct_iff parsed accepted (by decide) generated
  have distinct : (us.map OutputUnit.path).Nodup := nodup.2 (by decide)
  refine ⟨parsed, us, generated, distinct, forced.2 (by decide), ?_⟩
  intro t t' output s run
  exact (runs t t' output s run).1 distinct

/-- The text of a schema whose query type is called like the root unit. -/
def indexText : String := "schema \x7b query: index \x7d type index \x7b a: Int \x7d"

/-- The document of `indexText`. -/
def indexDocument : Sdl.Document := ⟨[
  .operations ⟨some "index", none, none⟩,
  .definition (.object "index" [] [⟨"a", .named "Int" false, []⟩])]⟩

/-- The query type of `indexText`. -/
def indexQuery : ObjectType := ⟨"index", [⟨"a", ⟨"Int", .scalar, true, []⟩, []⟩], []⟩

/-- The schema of `indexText`, without any models or context type. -/
def indexSource : Source := ⟨⟨[.object indexQuery], ⟨"index", "Mutation", "Subscription"⟩⟩, .empty, none, .off⟩

/-- Units are generated for `indexText`, although two of them have one path, and although the one of the query type is
always written where the root unit may carry edits. -/
theorem index_paths_collide : Sdl.Document.parse indexText = .ok indexDocument ∧
    indexDocument.schema = .ok indexSource.schema ∧ (indexDocument.types.map Sdl.TypeDefinition.name).Nodup ∧
    ∃ us, indexSource.generate .passthrough = .ok us ∧ ¬(us.map OutputUnit.path).Nodup ∧
      ∃ u ∈ us, u.path = unitPath rootUnit ∧ u.forceOverwrite = true := by
  have accepted : indexDocument.schema = .ok indexSource.schema := by decide
  have generates : ∃ us, indexSource.generate .passthrough = .ok us :=
    exists_generate (Sdl.schema_consistent accepted) .passthrough (by decide) (by decide +kernel)
  obtain ⟨us, generated⟩ := generates
  have query : Entity.object indexQuery ∈ indexSource.schema.entities := by decide
  refine ⟨by cbv, accepted, by decide, us, generated, ?_, (exists_forced_iff generated).2 ⟨_, query, rfl⟩⟩
  rw [nodup_paths_iff (by decide) generated]
  exact fun apart => apart _ query (.inl rfl)

end SchemaTypings

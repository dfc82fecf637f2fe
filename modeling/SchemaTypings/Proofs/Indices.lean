import Mathlib
import SchemaTypings.Proofs.AbstractTypes

/-!
# What the tables of a schema answer

The tables of a schema with distinct names answer for the definitions that they are about and for nothing else, and
where two of them tell of one relation they agree.

- `Knows look names`: a look-up has an answer for each of the given names, and refuses all others as unknown;
- `foldl_joinObject`, `eraseDups_declaring`: what an interface lists is kept, and behind it come the objects that
  declare the interface on their own, each once;
- `eraseDups_unionsOf`: the unions of an object in declaration order;
- `Indexed s a`, `tables_indexed`: the tables `a` answer for the schema `s`.
-/

namespace SchemaTypings

variable {α β : Type}

/-! ## Names with an answer -/

/-- A look-up has an answer for the given names. It refuses every other name as unknown. -/
structure Knows (look : String → Except Fault β) (names : List String) : Prop where
  answers : ∀ n ∈ names, ∃ v, look n = .ok v
  refuses : ∀ n, n ∉ names → look n = .error (.unknownType n)

theorem find_eq_error {t : OrderedMap String β} {name : String} (h : t.get? name = none) :
    Associations.find t name = .error (.unknownType name) := by
  unfold Associations.find
  rw [h]

theorem Tabulates.knows {key : α → String} {R : α → β → Prop} {xs : List α} {t : OrderedMap String β}
    (h : Tabulates key R xs t) : Knows (Associations.find t) (xs.map key) where
  answers := by
    intro n hn
    obtain ⟨x, hx, rfl⟩ := List.mem_map.1 hn
    obtain ⟨v, hv⟩ := h.total hx
    exact ⟨v, find_eq_ok.2 hv⟩
  refuses := by
    intro n hn
    refine find_eq_error (h.get?_eq_none.2 (lastOf_eq_none.2 fun x hx e => hn ?_))
    exact e ▸ List.mem_map_of_mem hx

/-! ## Objects behind an interface -/

/-- Objects with distinct names join a list in their order, each once, unless an object of the name was there before. -/
theorem foldl_joinObject : ∀ {ps os : List ObjectType}, (∀ p ∈ ps, ∀ q ∈ ps, p.name = q.name → p = q) →
    ps.foldl joinObject os = os ++ (ps.filter (·.name ∉ os.map ObjectType.name)).eraseDups
  | [], os, _ => by simp
  | p :: ps, os, distinct => by
    have rest : ∀ q ∈ ps, ∀ r ∈ ps, q.name = r.name → q = r := fun q hq r hr =>
      distinct q (List.mem_cons_of_mem _ hq) r (List.mem_cons_of_mem _ hr)
    rw [List.foldl_cons]
    by_cases known : p.name ∈ os.map ObjectType.name
    · have joined : joinObject os p = os := by
        obtain ⟨o, ho, name⟩ := List.mem_map.1 known
        exact if_pos (List.any_eq_true.2 ⟨o, ho, by simpa using name⟩)
      rw [joined, foldl_joinObject rest, List.filter_cons_of_neg (by simpa using known)]
    · have joined : joinObject os p = os ++ [p] :=
        if_neg fun h => by
          obtain ⟨o, ho, name⟩ := List.any_eq_true.1 h
          exact known (List.mem_map.2 ⟨o, ho, by simpa using name⟩)
      have others : ps.filter (·.name ∉ (os ++ [p]).map ObjectType.name) =
          (ps.filter (·.name ∉ os.map ObjectType.name)).filter fun q => !q == p := by
        rw [List.filter_filter]
        refine List.filter_congr fun q hq => ?_
        have same : q.name = p.name ↔ q = p :=
          ⟨distinct q (List.mem_cons_of_mem _ hq) p List.mem_cons_self, congrArg ObjectType.name⟩
        by_cases hp : q = p <;> simp [same, hp]
      rw [joined, foldl_joinObject rest, others, List.filter_cons_of_pos (by simpa using known), List.eraseDups_cons]
      simp

namespace Schema

variable {s : Schema} (distinct : (s.definitions.map Definition.name).Nodup)

include distinct

/-- Each object that declares an interface does so once or more often; without repetitions they stand in the order of
their definitions. -/
theorem eraseDups_declaring (interface : String) :
    (s.declaring interface).eraseDups = s.objects.filter (interface ∈ ·.implements) := by
  have blocks : s.declaring interface =
      s.objects.flatMap fun o => List.replicate (o.implements.count interface) (id o) := by
    simp only [declaring, conformances, List.filter_flatMap, List.map_flatMap, List.filter_map, List.map_map,
      List.count_eq_length_filter, ← List.map_const']
    rfl
  have objects : (s.objects.map id).Nodup := by
    rw [List.map_id]
    exact (nodup_objects distinct).of_map
  rw [blocks, eraseDups_flatMap_replicate _ objects, List.map_id]
  simp [List.count_pos_iff]

/-- Without repetitions, the unions of an object stand in the order of their definitions. -/
theorem eraseDups_unionsOf (object : String) :
    (s.unionsOf object).eraseDups = (s.unions.filter (object ∈ ·.members)).map UnionType.name := by
  have blocks : s.unionsOf object =
      s.unions.flatMap fun w => List.replicate (w.members.count object) w.name := by
    simp only [unionsOf, List.map_const', List.count_eq_length_filter]
  rw [blocks, eraseDups_flatMap_replicate _ (nodup_unions distinct)]
  simp [List.count_pos_iff]

end Schema

/-! ## The tables of a schema -/

/-- The tables of a schema answer for its definitions: each look-up knows the names of those that it concerns. The
members of a union are the objects that it lists, and the unions of an object are those that list it. The implementors
of an interface are those that it lists, and behind them the others that declare it. -/
structure Indexed (s : Schema) (a : Associations) : Prop where
  knows_inputType : Knows a.inputType (s.inputs.map InputType.name)
  knows_inputsOf : Knows a.inputsOf (s.objects.map ObjectType.name ++ s.interfaces.map InterfaceType.name)
  knows_enumsOf : Knows a.enumsOf (s.objects.map ObjectType.name ++ s.interfaces.map InterfaceType.name)
  knows_implementors : Knows a.implementors (s.interfaces.map InterfaceType.name)
  knows_members : Knows a.members (s.unions.map UnionType.name)
  knows_unionsContaining : Knows a.unionsContaining (s.objects.map ObjectType.name)
  inputType : ∀ i ∈ s.inputs, a.inputType i.name = .ok i
  members : ∀ w ∈ s.unions, ∃ os, a.members w.name = .ok os ∧ os.map ObjectType.name = w.members ∧
    ∀ o ∈ os, o ∈ s.objects
  /-- A union counts as often as it lists the object. -/
  unions : ∀ o ∈ s.objects, a.unionsContaining o.name = .ok (s.unionsOf o.name)
  declarationOrder : ∀ o ∈ s.objects,
    (s.unionsOf o.name).eraseDups = (s.unions.filter (o.name ∈ ·.members)).map UnionType.name
  inverse : ∀ o ∈ s.objects, ∀ w ∈ s.unions, ∃ us os,
    a.unionsContaining o.name = .ok us ∧ a.members w.name = .ok os ∧ (w.name ∈ us ↔ o ∈ os)
  implementors : ∀ i ∈ s.interfaces, ∃ listed, listed.map ObjectType.name = i.implementors ∧
    (∀ o ∈ listed, o ∈ s.objects) ∧ a.implementors i.name =
      .ok (listed ++ s.objects.filter fun o => i.name ∈ o.implements ∧ o.name ∉ i.implementors)

section Tables

variable {s : Schema} {a : Associations} (t : Tables s a)

include t

/-- The table of input types has them as they are. -/
theorem Tables.tabulates_inputTypes : Tabulates InputType.name (fun i j => j = i) s.inputs a.inputTypes where
  sound h := by
    rw [t.inputTypes] at h
    exact ⟨_, h, rfl⟩
  total := by
    intro i hi
    obtain ⟨j, hj⟩ := Schema.exists_input? (Schema.defines_input.2 ⟨i, Schema.mem_inputs.1 hi, rfl⟩)
    exact ⟨j, by rw [t.inputTypes, hj]⟩

theorem Tables.knows_implementors : Knows a.implementors (s.interfaces.map InterfaceType.name) where
  answers := by
    intro n hn
    obtain ⟨i, hi, rfl⟩ := List.mem_map.1 hn
    exact t.exists_implementors (Schema.defines_interface.2 ⟨i, Schema.mem_interfaces.1 hi, rfl⟩)
  refuses := by
    intro n hn
    obtain ⟨listed, table, joined⟩ := t.implementors
    have none : listed.get? n = none := table.get?_eq_none.2 (lastOf_eq_none.2 fun i hi e =>
      hn (e ▸ List.mem_map_of_mem hi))
    exact find_eq_error (by rw [joined, none]; rfl)

variable (distinct : (s.definitions.map Definition.name).Nodup)

include distinct

/-- An object belongs to a union as the table of members says if and only if it does as the table of unions says. -/
theorem Tables.inverse {o : ObjectType} (ho : o ∈ s.objects) {w : UnionType} (hw : w ∈ s.unions) :
    ∃ us os, a.unionsContaining o.name = .ok us ∧ a.members w.name = .ok os ∧ (w.name ∈ us ↔ o ∈ os) := by
  obtain ⟨us, hus, contained⟩ := t.unionsContaining_eq ho
  obtain ⟨os, hos, names, objects⟩ := Schema.members_eq distinct t hw
  refine ⟨us, os, hus, hos, (contained w.name).trans ⟨?_, fun hm => ⟨w, hw, rfl, ?_⟩⟩⟩
  · rintro ⟨w', hw', name, listed⟩
    cases List.inj_on_of_nodup_map (Schema.nodup_unions distinct) hw' hw name
    obtain ⟨o', ho', same⟩ := List.mem_map.1 (names ▸ listed)
    rwa [← List.inj_on_of_nodup_map (Schema.nodup_objects distinct) (objects o' ho') ho same]
  · rw [← names]
    exact List.mem_map_of_mem hm

/-- Behind the implementors that an interface lists come the others that declare it, in the order of their
definitions. -/
theorem Tables.implementors_eq {i : InterfaceType} (hi : i ∈ s.interfaces) :
    ∃ listed, listed.map ObjectType.name = i.implementors ∧ (∀ o ∈ listed, o ∈ s.objects) ∧ a.implementors i.name =
      .ok (listed ++ s.objects.filter fun o => i.name ∈ o.implements ∧ o.name ∉ i.implementors) := by
  obtain ⟨base, table, joined⟩ := t.implementors
  obtain ⟨listed, found, objects⟩ := table.get? (Schema.nodup_interfaces distinct) hi
  have names : listed.map ObjectType.name = i.implementors := Schema.map_name_of_objects objects
  have distinctly : ∀ p ∈ s.declaring i.name, ∀ q ∈ s.declaring i.name, p.name = q.name → p = q := fun p hp q hq =>
    List.inj_on_of_nodup_map (Schema.nodup_objects distinct) (Schema.mem_declaring.1 hp).1 (Schema.mem_declaring.1 hq).1
  refine ⟨listed, names, fun o ho => ?_, find_eq_ok.2 ?_⟩
  · obtain ⟨n, -, hn⟩ := exists_of_mem_mapM objects ho
    exact (Schema.mem_of_object hn).1
  · rw [joined, found, Option.map_some, foldl_joinObject distinctly, names, ← filter_eraseDups,
      Schema.eraseDups_declaring distinct, List.filter_filter]
    simp [and_comm]

theorem Tables.indexed : Indexed s a where
  knows_inputType := t.tabulates_inputTypes.knows
  knows_inputsOf := s.map_fst_fieldOwners ▸ t.inputsByOwner.knows
  knows_enumsOf := s.map_fst_fieldOwners ▸ t.enumsByOwner.knows
  knows_implementors := t.knows_implementors
  knows_members := t.membersByUnion.knows
  knows_unionsContaining := t.unionsByMember.knows
  inputType i hi := by
    obtain ⟨_, found, rfl⟩ := t.tabulates_inputTypes.get? (Schema.nodup_inputs distinct) hi
    exact find_eq_ok.2 found
  members _ := Schema.members_eq distinct t
  unions o ho := by
    obtain ⟨_, found, rfl⟩ := t.unionsByMember.get? (Schema.nodup_objects distinct) ho
    exact find_eq_ok.2 found
  declarationOrder o _ := Schema.eraseDups_unionsOf distinct o.name
  inverse _ ho _ hw := t.inverse distinct ho hw
  implementors _ := t.implementors_eq distinct

end Tables

/-- In a schema with distinct names the tables answer for the definitions, and the relations that two of them tell of
are the same in both. If the schema is that of a document, the implementors of an interface without repetitions are the
objects that declare it, in their order. -/
theorem indices_complete {s : Schema} {a : Associations} (distinct : (s.definitions.map Definition.name).Nodup)
    (built : Associations.build s = .ok a) : Indexed s a ∧
      ∀ d : Sdl.Document, d.schema = .ok s → ∀ i ∈ s.interfaces, ∃ os, a.implementors i.name = .ok os ∧
        os.eraseDups = s.objects.filter (i.name ∈ ·.implements) ∧
        os.eraseDups.map ObjectType.name = d.implementors i.name := by
  have t : Tables s a := tables_of_build built
  refine ⟨t.indexed distinct, fun d accepted i hi => ?_⟩
  have listed : i.implementors = s.declarers i.name := Sdl.schema_implementors accepted distinct hi
  have order := Schema.eraseDups_declaring distinct i.name
  refine ⟨_, Schema.implementors_of_listed distinct t hi listed, order, ?_⟩
  rw [order, Sdl.Document.implementors, ← Sdl.schema_objectClauses accepted, List.filter_map, List.map_map]
  rfl

/-- Interfaces and unions that overlap. The interface `Node` lists an object twice which does not declare it, and does
not list all of those that do. -/
def relatedSchema : Schema := ⟨[
  .union ⟨"Hit", ["Post", "Page", "Post"]⟩,
  .object ⟨"User", [], []⟩,
  .interface ⟨"Node", [], ["User", "Post", "User"]⟩,
  .object ⟨"Page", [⟨"size", .named "Size" .enum, [⟨"filter", .named "Filter" .input⟩]⟩], ["Node", "Node"]⟩,
  .object ⟨"Post", [], ["Node"]⟩,
  .enum ⟨"Size", ["SMALL", "LARGE"]⟩,
  .input ⟨"Filter", [⟨"not", .named "Filter" .input⟩]⟩,
  .union ⟨"Shared", ["Post"]⟩],
  .standard⟩

/-- The tables of `relatedSchema`. -/
def relatedTables : Associations :=
  let user : ObjectType := ⟨"User", [], []⟩
  let page : ObjectType :=
    ⟨"Page", [⟨"size", .named "Size" .enum, [⟨"filter", .named "Filter" .input⟩]⟩], ["Node", "Node"]⟩
  let post : ObjectType := ⟨"Post", [], ["Node"]⟩
  { inputTypes := ⟨[("Filter", ⟨"Filter", [⟨"not", .named "Filter" .input⟩]⟩)]⟩
    inputsByOwner := ⟨[("User", []), ("Page", ["Filter"]), ("Post", []), ("Node", [])]⟩
    implementorsByInterface := ⟨[("Node", [user, post, user, page])]⟩
    membersByUnion := ⟨[("Hit", [post, page, post]), ("Shared", [post])]⟩
    unionsByMember := ⟨[("User", []), ("Page", ["Hit"]), ("Post", ["Hit", "Hit", "Shared"])]⟩
    enumsByOwner := ⟨[("User", []), ("Page", ["Size"]), ("Post", []), ("Node", [])]⟩ }

theorem indices_complete_related : Associations.build relatedSchema = .ok relatedTables ∧
    Indexed relatedSchema relatedTables ∧
    ∃ a, Associations.build librarySchema = .ok a ∧ Indexed librarySchema a ∧
      ∃ os, a.implementors "Item" = .ok os ∧ os.eraseDups.map ObjectType.name = library.implementors "Item" := by
  have related : Associations.build relatedSchema = .ok relatedTables := by cbv
  obtain ⟨a, ha⟩ := exists_build (Sdl.schema_consistent library_accepted)
  obtain ⟨indexed, implementors⟩ := indices_complete (by decide) ha
  obtain ⟨os, hos, -, names⟩ := implementors library library_accepted
    ⟨"Item", [⟨"added", ⟨"Date", .scalar, false, []⟩, []⟩], ["Book", "Map"]⟩ (by decide)
  exact ⟨related, (indices_complete (by decide) related).1, a, ha, indexed, os, hos, names⟩

end SchemaTypings

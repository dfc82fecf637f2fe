import SchemaTypings.Proofs.Traversal

/-!
# The first fault of a schema

A schema may be given without a document, so that nothing has been checked about it. Its definitions are tied together
by the names in three kinds of lists, and the construction of the tables fails at the first of them that does not denote
what it should. Only then are the input types followed.

- `Link`: a name in one of the lists; `Schema.links`: all of them in the order in which they are looked up;
- `Schema.documented`, `Schema.reported`: the fault that is due to a wrong name, and the one that is reported. They
  differ for names after `implements` that nothing has (`Schema.Stray`);
- `fault?_build`: the construction fails with the fault of the first wrong name in a list, or else with that of the
  first input type that does not exist;
- `exists_build_iff`, `exists_build`: when the construction succeeds, as it does for every consistent schema;
- `build_outcome`: the outcome as a whole. The fault is the documented one unless the first wrong name is stray.
-/

namespace SchemaTypings

/-! ## Names in lists -/

/-- A name in one of the lists that tie definitions together. -/
inductive Link where
  /-- Among the implementors of an interface. -/
  | implementor (name : String)
  /-- After the `implements` of an object. -/
  | conformance (name : String)
  /-- Among the members of a union. -/
  | member (name : String)
  deriving DecidableEq, Repr

namespace Link

/-- The name that is listed. -/
def name : Link → String
  | implementor n | conformance n | member n => n

/-- What the name must denote. -/
def category : Link → Category
  | implementor _ | member _ => .object
  | conformance _ => .interface

/-- The fault of a name that denotes something else. -/
def mismatch : Link → Fault
  | implementor n | member n => .notAnObject n
  | conformance n => .notAnInterface n

end Link

namespace Schema

variable (s : Schema)

instance (c : Category) (name : String) : Decidable (s.Defines c name) :=
  inferInstanceAs (Decidable (∃ d ∈ s.definitions, d.name = name ∧ d.category = c))

/-- The names that are listed: those of implementors, then those after `implements`, then those of members. -/
def links : List Link :=
  (s.interfaces.flatMap fun i => i.implementors.map .implementor) ++
    (s.objects.flatMap fun o => o.implements.map .conformance) ++ s.unions.flatMap fun u => u.members.map .member

/-- The first listed name that does not denote what it should. -/
def wrongLink? : Option Link := s.links.find? fun l => ¬s.Defines l.category l.name

/-- The fault that is due to a wrong name: nothing has it, or a definition of another category. -/
def documented (l : Link) : Fault :=
  if l.name ∈ s.definitions.map Definition.name then l.mismatch else .unknownType l.name

/-- The fault that is reported for a wrong name. What is not an interface is not looked up any further. -/
def reported : Link → Fault
  | .conformance n => .notAnInterface n
  | l => s.documented l

/-- A name after `implements` that no definition has. -/
def Stray (l : Link) : Prop := ∃ n, l = .conformance n ∧ n ∉ s.definitions.map Definition.name

/-- The first name of an input type that does not exist, in the order in which objects and interfaces lead to them. -/
def unknownInput? : Option String :=
  (s.fieldOwners.flatMap fun p => s.firstUses p.2).find? fun n => ¬s.Defines .input n

variable {s}

/-- The fault that is reported is the one that is due, unless the name is stray. -/
theorem reported_eq_documented {l : Link} : s.reported l = s.documented l ↔ ¬s.Stray l := by
  cases l with
  | implementor n => simp [reported, Stray]
  | member n => simp [reported, Stray]
  | conformance n =>
    have stray : s.Stray (.conformance n) ↔ n ∉ s.definitions.map Definition.name := by simp [Stray]
    rw [stray, not_not, documented]
    by_cases h : n ∈ s.definitions.map Definition.name
    · simp only [Link.name, h, if_true, iff_true]
      rfl
    · simp only [Link.name, h, if_false, iff_false]
      exact nofun

end Schema

/-! ## The fault of each step -/

section Faults

variable {s : Schema}

/-- What is wrong about a listed name. -/
def Schema.linkFault? (s : Schema) (l : Link) : Option Fault :=
  if s.Defines l.category l.name then none else some (s.reported l)

/-- The value of the first element without a property. -/
theorem findSome?_ite {α β : Type} (p : α → Prop) [DecidablePred p] (g : α → β) : ∀ xs : List α,
    xs.findSome? (fun x => if p x then none else some (g x)) = (xs.find? fun x => ¬p x).map g
  | [] => rfl
  | x :: xs => by
    rw [List.findSome?_cons, List.find?_cons]
    by_cases h : p x
    · simp only [h, findSome?_ite p g xs, not_true, decide_false, if_true]
    · simp [h]

theorem fault?_object (n : String) : fault? (s.object n) = s.linkFault? (.implementor n) := by
  unfold Schema.linkFault?
  split
  · rename_i h
    exact fault?_eq_none.2 (Schema.exists_object h)
  · rename_i h
    have none : s.objects.reverse.find? (·.name == n) = none := by
      rw [List.find?_eq_none]
      intro o ho e
      exact h (Schema.defines_object.2 ⟨o, Schema.mem_objects.1 (List.mem_reverse.1 ho), beq_iff_eq.1 e⟩)
    unfold Schema.object
    rw [none]
    simp [fault?, Schema.reported, Schema.documented, Link.name, Link.mismatch]

/-- The objects of a list of names are looked up until one of them is none. -/
theorem fault?_objects (names : List String) :
    fault? (names.mapM s.object) = (names.map Link.implementor).findSome? s.linkFault? := by
  rw [fault?_mapM fault?_object, List.findSome?_map]
  rfl

theorem fault?_listedImplementors : fault? s.listedImplementors =
    (s.interfaces.flatMap fun i => i.implementors.map Link.implementor).findSome? s.linkFault? := by
  have each : ∀ i : InterfaceType, fault? (do return (i.name, ← i.implementors.mapM s.object)) =
      (i.implementors.map Link.implementor).findSome? s.linkFault? := fun i => by
    rw [fault?_map, fault?_objects]
  rw [Schema.listedImplementors, fault?_map, fault?_mapM each, findSome?_flatMap]

theorem fault?_memberTable : fault? s.memberTable =
    (s.unions.flatMap fun u => u.members.map Link.member).findSome? s.linkFault? := by
  have each : ∀ u : UnionType, fault? (do return (u.name, ← u.members.mapM s.object)) =
      (u.members.map Link.member).findSome? s.linkFault? := fun u => by
    rw [fault?_map, fault?_objects, List.findSome?_map, List.findSome?_map]
    rfl
  rw [Schema.memberTable, fault?_mapM each, findSome?_flatMap]

/-- An object joins an interface if there is one of the name. -/
theorem fault?_addImplementor {table : OrderedMap String (List ObjectType)}
    (interfaces : ∀ n, (∃ os, table.get? n = some os) ↔ s.Defines .interface n) {o : ObjectType} {i : String} :
    fault? (Schema.addImplementor o table i) = s.linkFault? (.conformance i) := by
  unfold Schema.addImplementor Schema.linkFault?
  cases found : table.get? i with
  | some os =>
    have known : s.Defines .interface i := (interfaces i).1 ⟨os, found⟩
    exact (if_pos known).symm
  | none =>
    have unknown : ¬s.Defines .interface i := fun known => by
      obtain ⟨os, other⟩ := (interfaces i).2 known
      cases found.symm.trans other
    exact (if_neg unknown).symm

/-- Objects join the interfaces that they declare until one of these is none. A table of all interfaces remains one. -/
theorem fault?_foldlM_addImplementor : ∀ {ps : List (ObjectType × String)}
    {table : OrderedMap String (List ObjectType)},
    (∀ n, (∃ os, table.get? n = some os) ↔ s.Defines .interface n) →
      fault? (ps.foldlM (fun t p => Schema.addImplementor p.1 t p.2) table) =
        ps.findSome? fun p => s.linkFault? (.conformance p.2)
  | [], _, _ => rfl
  | (o, i) :: ps, table, interfaces => by
    have rest : ∀ next, Schema.addImplementor o table i = .ok next →
        fault? (ps.foldlM (fun t p => Schema.addImplementor p.1 t p.2) next) =
          ps.findSome? fun p => s.linkFault? (.conformance p.2) := by
      intro next step
      refine fault?_foldlM_addImplementor fun n => ?_
      rw [← interfaces n, addImplementor_eq_ok step n]
      simp
    rw [List.foldlM_cons, fault?_bind rest, fault?_addImplementor interfaces, List.findSome?_cons]
    cases s.linkFault? (.conformance i) <;> rfl

/-- The table of the listed implementors has all interfaces. -/
theorem get?_listedImplementors {t : OrderedMap String (List ObjectType)} (h : s.listedImplementors = .ok t)
    (n : String) : (∃ os, t.get? n = some os) ↔ s.Defines .interface n := by
  obtain ⟨es, hes, h⟩ := bind_eq_ok.1 h
  cases h
  have table := Tabulates.of_mapM hes
  rw [Schema.defines_interface]
  constructor
  · rintro ⟨os, hos⟩
    obtain ⟨i, last, -⟩ := table.sound hos
    obtain ⟨hi, rfl⟩ := mem_of_lastOf last
    exact ⟨i, Schema.mem_interfaces.1 hi, rfl⟩
  · rintro ⟨i, hi, rfl⟩
    exact table.total (Schema.mem_interfaces.2 hi)

theorem fault?_implementorTable : fault? s.implementorTable =
    ((s.interfaces.flatMap fun i => i.implementors.map Link.implementor) ++
      s.objects.flatMap fun o => o.implements.map Link.conformance).findSome? s.linkFault? := by
  have joined : ∀ t, s.listedImplementors = .ok t →
      fault? (s.conformances.foldlM (fun t p => Schema.addImplementor p.1 t p.2) t) =
        (s.objects.flatMap fun o => o.implements.map Link.conformance).findSome? s.linkFault? := by
    intro t h
    rw [fault?_foldlM_addImplementor (get?_listedImplementors h), Schema.conformances, findSome?_flatMap,
      findSome?_flatMap]
    simp only [List.findSome?_map]
    rfl
  rw [implementorTable_eq, fault?_bind joined, fault?_listedImplementors, List.findSome?_append]

theorem mem_map_name_inputs {n : String} : n ∈ s.inputs.map InputType.name ↔ s.Defines .input n := by
  simp only [List.mem_map, Schema.mem_inputs, Schema.defines_input]

theorem fault?_reachableInputs (fields : List Field) : fault? (reachableInputs s.inputTable fields) =
    ((s.firstUses fields).find? fun n => ¬s.Defines .input n).map .unknownType := by
  refine Option.ext fun f => ?_
  rw [fault?_eq_some, reachableInputs_eq_error, Option.map_eq_some_iff]
  simp only [mem_map_name_inputs, eq_comm (a := f)]

/-- The construction of the tables fails with the fault of the first listed name that is wrong, or else with that of the
first input type that does not exist. -/
theorem fault?_build (s : Schema) : fault? (Associations.build s) =
    (s.wrongLink?.map s.reported).or (s.unknownInput?.map .unknownType) := by
  have links : s.wrongLink?.map s.reported = s.links.findSome? s.linkFault? :=
    (findSome?_ite (fun l : Link => s.Defines l.category l.name) s.reported s.links).symm
  have owners : fault? (s.fieldOwners.mapM fun p => do return (p.1, ← reachableInputs s.inputTable p.2)) =
      s.unknownInput?.map .unknownType := by
    have each : ∀ p : String × List Field, fault? (do return (p.1, ← reachableInputs s.inputTable p.2)) =
        (s.firstUses p.2).findSome? fun n => if s.Defines .input n then none else some (.unknownType n) := fun p => by
      rw [fault?_map, fault?_reachableInputs, findSome?_ite (s.Defines .input ·)]
    rw [fault?_mapM each, ← findSome?_flatMap, findSome?_ite (s.Defines .input ·), Schema.unknownInput?]
  rw [links, Schema.links, List.findSome?_append, ← fault?_implementorTable, ← fault?_memberTable, ← owners]
  unfold Associations.build
  rw [fault?_bind fun _ _ => fault?_bind fun _ _ => fault?_map _ _, Option.or_assoc]
  rfl

end Faults

/-! ## The outcome of the construction -/

/-- The names in the lists of a schema and the input types that it leads to are what they should be. -/
structure Schema.Tied (s : Schema) : Prop where
  links : ∀ l ∈ s.links, s.Defines l.category l.name
  inputs : ∀ p ∈ s.fieldOwners, ∀ n, Reaches s.input? (p.2.flatMap Field.arguments) n → s.Defines .input n

/-- The construction of the tables tells apart what is wrong about a schema: it succeeds if the names in lists and the
input types are what they should be, and it fails with the fault that is due to the first listed name that is wrong. -/
structure Schema.Classified (s : Schema) : Prop where
  succeeds : (∃ a, Associations.build s = .ok a) ↔ s.Tied
  fails : ∀ l, s.wrongLink? = some l → Associations.build s = .error (s.documented l)

/-- What the construction of the tables comes to: it succeeds if names and input types are what they should be, and
otherwise reports the first listed name that is wrong or else the first input type that does not exist. What is reported
is what is due unless the listed name is stray. -/
structure Schema.Outcome (s : Schema) : Prop where
  succeeds : (∃ a, Associations.build s = .ok a) ↔ s.Tied
  link : ∀ l, s.wrongLink? = some l → Associations.build s = .error (s.reported l)
  input : s.wrongLink? = none → ∀ f,
    Associations.build s = .error f ↔ ∃ n, s.unknownInput? = some n ∧ f = .unknownType n
  classified : s.Classified ↔ ∀ l, s.wrongLink? = some l → ¬s.Stray l

section Outcome

variable {s : Schema}

theorem mem_links {l : Link} : l ∈ s.links ↔ (∃ i ∈ s.interfaces, ∃ n ∈ i.implementors, l = .implementor n) ∨
    (∃ o ∈ s.objects, ∃ n ∈ o.implements, l = .conformance n) ∨ ∃ u ∈ s.unions, ∃ n ∈ u.members, l = .member n := by
  simp only [Schema.links, List.mem_append, List.mem_flatMap, List.mem_map, or_assoc, eq_comm]

theorem wrongLink?_eq_none : s.wrongLink? = none ↔ ∀ l ∈ s.links, s.Defines l.category l.name := by
  simp [Schema.wrongLink?]

theorem unknownInput?_eq_none : s.unknownInput? = none ↔
    ∀ p ∈ s.fieldOwners, ∀ n, Reaches s.input? (p.2.flatMap Field.arguments) n → s.Defines .input n := by
  simp only [Schema.unknownInput?, List.find?_eq_none, List.mem_flatMap, Schema.mem_firstUses, decide_eq_true_eq,
    not_not]
  exact ⟨fun h p hp n hn => h n ⟨p, hp, hn⟩, fun h n ⟨p, hp, hn⟩ => h p hp n hn⟩

/-- The tables are built exactly if names in lists and input types are what they should be. -/
theorem exists_build_iff : (∃ a, Associations.build s = .ok a) ↔ s.Tied := by
  rw [← fault?_eq_none, fault?_build, Option.or_eq_none_iff, Option.map_eq_none_iff, Option.map_eq_none_iff,
    wrongLink?_eq_none, unknownInput?_eq_none]
  exact ⟨fun h => ⟨h.1, h.2⟩, fun h => ⟨h.links, h.inputs⟩⟩

/-- Objects in a schema with tables declare interfaces only. -/
theorem defines_interface_of_build {a : Associations} (h : Associations.build s = .ok a) {o : ObjectType}
    (ho : o ∈ s.objects) {n : String} (hn : n ∈ o.implements) : s.Defines .interface n :=
  (exists_build_iff.1 ⟨a, h⟩).links (.conformance n) (mem_links.2 (.inr (.inl ⟨o, ho, n, hn, rfl⟩)))

/-- The tables of a consistent schema can be built. -/
theorem exists_build (c : s.Consistent) : ∃ a, Associations.build s = .ok a := by
  refine exists_build_iff.2 ⟨fun l hl => ?_, fun p hp n reached => ?_⟩
  · rcases mem_links.1 hl with ⟨i, hi, n, hn, rfl⟩ | ⟨o, ho, n, hn, rfl⟩ | ⟨u, hu, n, hn, rfl⟩
    · exact c.implementors i hi n hn
    · exact c.implements o ho n hn
    · exact c.members u hu n hn
  · have referred : ∃ r ∈ s.references, r.name = n ∧ r.category = .input := by
      cases reached with
      | @argument b hb hc =>
        obtain ⟨f, hf, hb⟩ := List.mem_flatMap.1 hb
        exact ⟨b.type, Schema.references_of_owner hp hf (List.mem_cons_of_mem _ (List.mem_map_of_mem hb)), rfl, hc⟩
      | @field _ i b _ hi hb hc => exact ⟨b.type, Schema.references_of_input (mem_of_lastOf hi).1 hb, rfl, hc⟩
    obtain ⟨r, hr, rfl, category⟩ := referred
    exact category ▸ c.references r hr (by simp [category])

theorem build_of_wrongLink {l : Link} (wrong : s.wrongLink? = some l) :
    Associations.build s = .error (s.reported l) := by
  rw [← fault?_eq_some, fault?_build, wrong]
  rfl

/-- Every schema has its tables or the fault of the first name that is wrong, and that fault is the one which is due
exactly if the name is not one after `implements` that no definition has. -/
theorem build_outcome (s : Schema) : s.Outcome where
  succeeds := exists_build_iff
  link _ wrong := build_of_wrongLink wrong
  input right f := by
    rw [← fault?_eq_some, fault?_build, right, Option.map_none, Option.none_or, Option.map_eq_some_iff]
    simp only [eq_comm (a := f)]
  classified := by
    constructor
    · intro h l wrong
      have due := h.fails l wrong
      rw [build_of_wrongLink wrong, Except.error.injEq] at due
      exact Schema.reported_eq_documented.1 due
    · intro known
      refine ⟨exists_build_iff, fun l wrong => ?_⟩
      rw [build_of_wrongLink wrong, Schema.reported_eq_documented.2 (known l wrong)]

/-- An object that declares conformance to an interface that does not exist. -/
def straySchema : Schema := ⟨[.object ⟨"Post", [], ["Node"]⟩], .standard⟩

/-- A name that no definition has is reported as one that is not an interface. -/
theorem stray_conformance : straySchema.wrongLink? = some (.conformance "Node") ∧
    "Node" ∉ straySchema.definitions.map Definition.name ∧
    Associations.build straySchema = .error (.notAnInterface "Node") ∧
    straySchema.documented (.conformance "Node") = .unknownType "Node" ∧ ¬straySchema.Classified := by
  have wrong : straySchema.wrongLink? = some (.conformance "Node") := by decide
  have reported : Associations.build straySchema = .error (.notAnInterface "Node") := build_of_wrongLink wrong
  have due : straySchema.documented (.conformance "Node") = .unknownType "Node" := by decide
  refine ⟨wrong, by decide, reported, due, fun h => ?_⟩
  have fault := h.fails _ wrong
  rw [reported, due] at fault
  cases fault

end Outcome

end SchemaTypings

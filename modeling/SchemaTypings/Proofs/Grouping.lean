import Mathlib.Data.List.Pairwise
import SchemaTypings.Imports
import SchemaTypings.Proofs.Computation
import SchemaTypings.Proofs.FirstOccurrences
import SchemaTypings.Proofs.Tables

/-!
# Import groups

A unit imports names in groups, one for each module. Names are pushed to the groups one after another: first the models
of needed names, then whatever else the unit imports.

- `ImportGroups.Distinct`: no module is listed twice, and no name within a module;
- `ImportGroups.Partitions`: groups part what was pushed by module, and keep the order of first pushes. One push keeps
  this (`Partitions.push`), and so does a list of pushes (`Partitions.pushAll`). Such groups are distinct, and a name is
  found under the modules that it was pushed for and nowhere else (`Partitions.mem_namesOf`);
- `ModelMap.model?`, `ModelMap.Lacks`: the model that is imported for a needed name, and a needed name for which there
  should be one but is none;
- `modelFor_eq`: a needed name that does not lack its model has what `model?` says, which may be none;
- `groupByModule_eq`, `groupByModule_eq_error`: the groups of needed names are made by pushing their models, unless one
  of the models is missing;
- `imports_partitioned`: what groups hold in the end and in which order, and when there are none.
-/

namespace SchemaTypings

/-! ## Groups -/

namespace ImportGroups

variable {g : ImportGroups} {module name : String}

theorem namesOf_push (g : ImportGroups) (module name m : String) : (g.push module name).namesOf m =
    if m = module ∧ name ∉ g.namesOf module then g.namesOf module ++ [name] else g.namesOf m := by
  unfold push
  by_cases hn : name ∈ g.namesOf module
  · simp [hn]
  · rw [if_neg hn]
    by_cases hm : m = module
    · subst hm
      rw [if_pos ⟨rfl, hn⟩]
      simp [namesOf]
    · simp [namesOf, hm]

/-- Every module and every name within a module is listed once. -/
structure Distinct (g : ImportGroups) : Prop where
  modules : g.groups.keys.Nodup
  names : ∀ m, (g.namesOf m).Nodup

/-- The entries of groups say which names are found under a module. -/
theorem Distinct.mem_entries (h : g.Distinct) {ns : List String} (hm : (module, ns) ∈ g.groups.entries) :
    g.namesOf module = ns := by
  rw [namesOf, (OrderedMap.mem_entries_iff h.modules).1 hm]
  rfl

theorem mem_namesOf_iff (h : g.Distinct) :
    name ∈ g.namesOf module ↔ ∃ ns, (module, ns) ∈ g.groups.entries ∧ name ∈ ns := by
  constructor
  · intro hn
    unfold namesOf at hn
    cases hg : g.groups.get? module with
    | none => simp [hg] at hn
    | some ns => exact ⟨ns, (OrderedMap.mem_entries_iff h.modules).2 hg, by simpa [hg] using hn⟩
  · rintro ⟨ns, hm, hn⟩
    rwa [h.mem_entries hm]

/-- All imported names are distinct if no name is found under two modules. -/
theorem Distinct.nodup_iff (h : g.Distinct) : (g.groups.entries.flatMap Prod.snd).Nodup ↔
    ∀ m m' n, n ∈ g.namesOf m → n ∈ g.namesOf m' → m = m' := by
  rw [List.nodup_flatMap]
  constructor
  · rintro ⟨-, apart⟩ m m' n hn hn'
    obtain ⟨ns, hm, hn⟩ := (mem_namesOf_iff h).1 hn
    obtain ⟨ns', hm', hn'⟩ := (mem_namesOf_iff h).1 hn'
    by_contra different
    have entries : (m, ns) ≠ (m', ns') := fun e => different (congrArg Prod.fst e)
    have symmetric : Std.Symm (Function.onFun List.Disjoint (Prod.snd : String × List String → List String)) :=
      ⟨fun _ _ disjoint n hn hn' => disjoint hn' hn⟩
    exact apart.forall hm hm' entries hn hn'
  · intro single
    refine ⟨fun p hp => h.mem_entries hp ▸ h.names p.1, ?_⟩
    have keys : g.groups.entries.Pairwise fun p q => p.1 ≠ q.1 := List.pairwise_map.1 h.modules
    refine keys.imp_of_mem fun {p q} hp hq different n hn hn' => different ?_
    exact single p.1 q.1 n (by rwa [h.mem_entries hp]) (by rwa [h.mem_entries hq])

/-! ## Pushes one after another -/

/-- Pushes names one after another. Each comes with its module in front. -/
def pushAll (g : ImportGroups) (pushes : List (String × String)) : ImportGroups :=
  pushes.foldl (fun g p => g.push p.1 p.2) g

/-- The names that were pushed for a module. -/
def pushedFor (module : String) (pushes : List (String × String)) : List String :=
  (pushes.filter fun p => p.1 = module).map Prod.snd

theorem mem_pushedFor {pushes : List (String × String)} : name ∈ pushedFor module pushes ↔ (module, name) ∈ pushes := by
  simp [pushedFor]

theorem pushedFor_append (m : String) (ps qs : List (String × String)) :
    pushedFor m (ps ++ qs) = pushedFor m ps ++ pushedFor m qs := by
  simp [pushedFor]

/-- Groups part what was pushed by its module. The modules, and the names of each module, are in the order in which they
were pushed first. -/
structure Partitions (g : ImportGroups) (pushes : List (String × String)) : Prop where
  modules : FirstOccurrences (pushes.map Prod.fst) g.groups.keys
  names : ∀ module, FirstOccurrences (pushedFor module pushes) (g.namesOf module)

theorem partitions_empty : empty.Partitions [] := ⟨.nil, fun _ => .nil⟩

/-- A name that is there already is not pushed again. -/
theorem push_of_mem (known : name ∈ g.namesOf module) : g.push module name = g := if_pos known

theorem mem_keys_of_mem_namesOf (known : name ∈ g.namesOf module) : module ∈ g.groups.keys := by
  unfold namesOf at known
  cases found : g.groups.get? module with
  | none => simp [found] at known
  | some ns => exact OrderedMap.mem_keys_of_get? found

/-- A push adds its module at the end, if it is new. -/
theorem keys_push (g : ImportGroups) (module name : String) : (g.push module name).groups.keys =
    if module ∈ g.groups.keys then g.groups.keys else g.groups.keys ++ [module] := by
  by_cases known : name ∈ g.namesOf module
  · rw [push_of_mem known, if_pos (mem_keys_of_mem_namesOf known)]
  · rw [push, if_neg known]
    exact OrderedMap.keys_insert _ _ _

namespace Partitions

variable {ps : List (String × String)}

theorem push (h : g.Partitions ps) (module name : String) :
    (g.push module name).Partitions (ps ++ [(module, name)]) where
  modules := by
    rw [keys_push, List.map_append]
    split
    · rename_i known
      exact h.modules.append_known ((h.modules.mem module).1 known)
    · rename_i new
      exact h.modules.append_new (mt (h.modules.mem module).2 new)
  names m := by
    rw [namesOf_push, pushedFor_append]
    -- only the names of the one module can change
    by_cases hm : m = module
    · subst hm
      have pushed : pushedFor m [(m, name)] = [name] := by simp [pushedFor]
      rw [pushed]
      by_cases known : name ∈ g.namesOf m
      · rw [if_neg fun h => h.2 known]
        exact (h.names m).append_known (((h.names m).mem name).1 known)
      · rw [if_pos ⟨rfl, known⟩]
        exact (h.names m).append_new (mt ((h.names m).mem name).2 known)
    · have other : pushedFor m [(module, name)] = [] := by simp [pushedFor, Ne.symm hm]
      rw [other, List.append_nil, if_neg fun h => hm h.1]
      exact h.names m

theorem pushAll (h : g.Partitions ps) (qs : List (String × String)) : (g.pushAll qs).Partitions (ps ++ qs) := by
  -- what was pushed before grows with each push
  induction qs generalizing g ps with
  | nil => rwa [List.append_nil]
  | cons q qs ih =>
    have rest := ih (h.push q.1 q.2)
    rwa [List.append_assoc] at rest

theorem distinct (h : g.Partitions ps) : g.Distinct := ⟨h.modules.nodup, fun m => (h.names m).nodup⟩

/-- A name is found under a module if it was pushed for it. -/
theorem mem_namesOf (h : g.Partitions ps) : name ∈ g.namesOf module ↔ (module, name) ∈ ps :=
  ((h.names module).mem name).trans mem_pushedFor

/-- The entries are the names that are found under the modules. No entry is empty. -/
theorem mem_entries (h : g.Partitions ps) {ns : List String} :
    (module, ns) ∈ g.groups.entries ↔ g.namesOf module = ns ∧ ns ≠ [] := by
  constructor
  · intro hm
    have names := h.distinct.mem_entries hm
    -- a module is listed because some name was pushed for it
    have known : module ∈ g.groups.keys := List.mem_map_of_mem hm
    obtain ⟨p, pushed, rfl⟩ := List.mem_map.1 ((h.modules.mem module).1 known)
    exact ⟨names, List.ne_nil_of_mem (names ▸ h.mem_namesOf.2 pushed)⟩
  · rintro ⟨rfl, some⟩
    obtain ⟨name, found⟩ := List.exists_mem_of_ne_nil _ some
    obtain ⟨ns, hm, -⟩ := (mem_namesOf_iff h.distinct).1 found
    rwa [h.distinct.mem_entries hm]

end Partitions

theorem pushAll_append (g : ImportGroups) (ps qs : List (String × String)) :
    g.pushAll (ps ++ qs) = (g.pushAll ps).pushAll qs := List.foldl_append

/-- Among pushes, one of a name that is there already makes no difference. -/
theorem pushAll_of_mem {before : List (String × String)} (known : name ∈ (g.pushAll before).namesOf module)
    (after : List (String × String)) : g.pushAll (before ++ (module, name) :: after) = g.pushAll (before ++ after) := by
  have skipped : (g.pushAll before).pushAll ((module, name) :: after) = (g.pushAll before).pushAll after := by
    rw [pushAll, List.foldl_cons, push_of_mem known]
    rfl
  rw [pushAll_append, pushAll_append, skipped]

end ImportGroups

/-! ## Models of needed names -/

/-- The model that is imported for a needed name of a category. Interfaces and unions have models only where they are
needed themselves, that is as types of arguments. -/
def ModelMap.model? (m : ModelMap) (roots : Roots) : Category → String → Option Model
  | .object, name => m.objectModel? roots name
  | .scalar, name | .interface, name | .union, name =>
    match m.lookup name with
    | .external model => some model
    | .enumBacked | .unmapped => none
  | .enum, _ | .input, _ => none

/-- The models that are imported for needed names, in their order, as pushes of names. -/
def ModelMap.imports (m : ModelMap) (roots : Roots) (needed : OrderedMap String Category) : List (String × String) :=
  (needed.entries.filterMap fun (n, k) => m.model? roots k n).map fun x => (x.module, x.typeName)

/-- A needed name is that of an object, but has no model and is not that of a root operation type. -/
def ModelMap.Lacks (m : ModelMap) (roots : Roots) (name : String) (k : Category) : Prop :=
  k = .object ∧ m.objectModel? roots name = none ∧ roots.contains name = false

/-- A name is the first of the needed ones that lacks a model. -/
def ModelMap.LacksFirst (m : ModelMap) (roots : Roots) (needed : OrderedMap String Category) (name : String) : Prop :=
  ∃ before k after, needed.entries = before ++ (name, k) :: after ∧ m.Lacks roots name k ∧
    ∀ e ∈ before, ¬m.Lacks roots e.1 e.2

instance (m : ModelMap) (roots : Roots) (name : String) (k : Category) : Decidable (m.Lacks roots name k) :=
  inferInstanceAs (Decidable (k = .object ∧ m.objectModel? roots name = none ∧ roots.contains name = false))

section Models

variable {models : ModelMap} {roots : Roots} {name : String} {k : Category} {needed : OrderedMap String Category}

/-- Each needed name has a model to import, or none and needs none, or lacks one. -/
theorem modelFor_eq : modelFor models roots name k =
    if models.Lacks roots name k then .error (.missingModel name) else .ok (models.model? roots k name) := by
  cases k with
  | object =>
    simp only [modelFor, ModelMap.Lacks, ModelMap.model?]
    cases models.objectModel? roots name with
    | some m => rfl
    | none => cases roots.contains name <;> rfl
  | enum => rfl
  | input => rfl
  | _ =>
    simp only [modelFor, ModelMap.model?]
    cases models.lookup name <;> rfl

theorem modelFor_eq_error {f : Fault} :
    modelFor models roots name k = .error f ↔ models.Lacks roots name k ∧ f = .missingModel name := by
  rw [modelFor_eq]
  split
  · rename_i lacks
    simp [lacks, eq_comm]
  · rename_i supplied
    simp [supplied]

theorem modelFor_eq_ok {o : Option Model} (h : modelFor models roots name k = .ok o) :
    o = models.model? roots k name := by
  rw [modelFor_eq] at h
  split at h
  · cases h
  · cases h
    rfl

/-! ## Groups of models -/

theorem ModelMap.mem_imports {module typeName : String} : (module, typeName) ∈ models.imports roots needed ↔
    ∃ n k, (n, k) ∈ needed.entries ∧
      ∃ m, models.model? roots k n = some m ∧ m.module = module ∧ m.typeName = typeName := by
  unfold ModelMap.imports
  simp only [List.mem_map, List.mem_filterMap, Prod.exists, Prod.mk.injEq]
  constructor
  · rintro ⟨m, ⟨n, k, hn, hm⟩, names⟩
    exact ⟨n, k, hn, m, hm, names⟩
  · rintro ⟨n, k, hn, m, hm, names⟩
    exact ⟨m, ⟨n, k, hn, hm⟩, names⟩

/-- The groups of needed names are made by pushing their models in order. -/
theorem groupByModule_eq {g : ImportGroups} (h : groupByModule models roots needed = .ok g) :
    g = ImportGroups.empty.pushAll (models.imports roots needed) := by
  obtain ⟨found, hf, h⟩ := bind_eq_ok.1 h
  cases h
  have pushed : found.filterMap id = needed.entries.filterMap fun (n, k) => models.model? roots k n := by
    rw [filterMap_of_mapM hf]
    refine List.filterMap_congr fun x hx => ?_
    obtain ⟨o, -, ho⟩ := exists_mem_of_mapM hf hx
    rw [ho]
    exact modelFor_eq_ok ho
  rw [pushed, ImportGroups.pushAll, ModelMap.imports, List.foldl_map]
  rfl

theorem partitions_of_groupByModule {g : ImportGroups} (h : groupByModule models roots needed = .ok g) :
    g.Partitions (models.imports roots needed) := by
  rw [groupByModule_eq h]
  exact ImportGroups.partitions_empty.pushAll _

/-- The grouped models are those of the needed names. -/
theorem groupByModule_eq_ok {g : ImportGroups} (h : groupByModule models roots needed = .ok g) :
    g.Distinct ∧ ∀ module name, name ∈ g.namesOf module ↔ ∃ n k, (n, k) ∈ needed.entries ∧
      ∃ m, models.model? roots k n = some m ∧ m.module = module ∧ m.typeName = name := by
  have partitions := partitions_of_groupByModule h
  exact ⟨partitions.distinct, fun _ _ => partitions.mem_namesOf.trans ModelMap.mem_imports⟩

/-- There are no groups if a needed name lacks a model, and the first such name is reported. -/
theorem groupByModule_eq_error {f : Fault} : groupByModule models roots needed = .error f ↔
    ∃ n, models.LacksFirst roots needed n ∧ f = .missingModel n := by
  have fault : fault? (groupByModule models roots needed) =
      needed.entries.findSome? fun e => fault? (modelFor models roots e.1 e.2) :=
    (fault?_map _ _).trans (fault?_mapM (fun _ => rfl) _)
  have none (e : String × Category) : fault? (modelFor models roots e.1 e.2) = none ↔ ¬models.Lacks roots e.1 e.2 := by
    rw [Option.eq_none_iff_forall_ne_some]
    simp only [ne_eq, fault?_eq_some, modelFor_eq_error]
    exact ⟨fun h lacks => h _ ⟨lacks, rfl⟩, fun h _ lacks => h lacks.1⟩
  rw [← fault?_eq_some, fault, List.findSome?_eq_some_iff]
  simp only [fault?_eq_some, modelFor_eq_error, none]
  constructor
  · rintro ⟨before, ⟨n, k⟩, after, split, ⟨lacks, rfl⟩, first⟩
    exact ⟨n, ⟨before, k, after, split, lacks, first⟩, rfl⟩
  · rintro ⟨n, ⟨before, k, after, split, lacks, first⟩, rfl⟩
    exact ⟨before, (n, k), after, split, ⟨lacks, rfl⟩, first⟩

/-- What groups hold that are made for needed names and to which further names are pushed afterwards: what was pushed
and the models of the needed names, every module and every name of a module once and in the order in which they were
pushed first. No module is listed without names, and a push of what is there already makes no difference. -/
structure Gathered (models : ModelMap) (roots : Roots) (needed : OrderedMap String Category) (g : ImportGroups)
    (pushes : List (String × String)) : Prop where
  contains : ∀ module name, name ∈ (g.pushAll pushes).namesOf module ↔ (module, name) ∈ pushes ∨
    ∃ n k, (n, k) ∈ needed.entries ∧ ∃ m, models.model? roots k n = some m ∧ m.module = module ∧ m.typeName = name
  listed : ∀ module ns, (module, ns) ∈ (g.pushAll pushes).groups.entries ↔
    (g.pushAll pushes).namesOf module = ns ∧ ns ≠ []
  once : (g.pushAll pushes).Distinct
  ordered : (g.pushAll pushes).Partitions (models.imports roots needed ++ pushes)
  again : ∀ before after module name, pushes = before ++ after → name ∈ (g.pushAll before).namesOf module →
    g.pushAll (before ++ (module, name) :: after) = g.pushAll pushes

/-- Groups for needed names part what is imported by its modules, whatever is pushed to them afterwards. There are none
if and only if an object lacks its model, and the first such object is reported. -/
theorem imports_partitioned : (∀ g, groupByModule models roots needed = .ok g →
      ∀ pushes, Gathered models roots needed g pushes) ∧
    ∀ f, groupByModule models roots needed = .error f ↔
      ∃ n, models.LacksFirst roots needed n ∧ f = .missingModel n := by
  refine ⟨fun g h pushes => ?_, fun f => groupByModule_eq_error⟩
  have partitions := (partitions_of_groupByModule h).pushAll pushes
  refine ⟨fun module name => ?_, fun module ns => partitions.mem_entries, partitions.distinct, partitions, ?_⟩
  · rw [partitions.mem_namesOf, List.mem_append, ModelMap.mem_imports, or_comm]
  · rintro before after module name rfl known
    exact ImportGroups.pushAll_of_mem known after

end Models

/-- Names that a unit needs, the last of them without a model of its own. -/
def forumNeeds : OrderedMap String Category := ⟨[("Query", .object), ("Thread", .object), ("ID", .scalar),
  ("DateTime", .scalar), ("Role", .enum), ("Day", .scalar), ("Filter", .input), ("Node", .interface),
  ("Post", .object)]⟩

/-- Models for `forumNeeds`. Two scalars have one model, and two modules export a type of one name. -/
def forumModels : ModelMap where
  defaultModule := some "./models"
  entries := ⟨[("DateTime", .external ⟨"Date", "./scalars", none⟩), ("Role", .enum),
    ("Day", .external ⟨"Date", "./scalars", none⟩), ("Node", .external ⟨"Thread", "./nodes", none⟩),
    ("Thread", .external ⟨"Thread", "./threads", none⟩)]⟩

/-- Further imports for `forumNeeds`: a new module, and two names that were imported before. -/
def forumPushes : List (String × String) :=
  [("./context", "Context"), ("./models", "Post"), ("./threads", "Draft"), ("./context", "Context")]

/-- The groups of `forumNeeds`, and the fault where there is no default module. -/
theorem imports_partitioned_forum : (∃ g, groupByModule forumModels .standard forumNeeds = .ok g ∧
      Gathered forumModels .standard forumNeeds g forumPushes) ∧
    groupByModule { forumModels with defaultModule := none } .standard forumNeeds = .error (.missingModel "Post") := by
  refine ⟨⟨_, rfl, imports_partitioned.1 _ rfl _⟩, (imports_partitioned.2 _).2 ⟨"Post", ?_, rfl⟩⟩
  exact ⟨forumNeeds.entries.dropLast, .object, [], rfl, ⟨rfl, rfl, rfl⟩, by decide⟩

example : (groupByModule forumModels .standard forumNeeds).map (fun g => (g.pushAll forumPushes).groups.entries) =
    .ok [("./threads", ["Thread", "Draft"]), ("./scalars", ["Date"]), ("./nodes", ["Thread"]), ("./models", ["Post"]),
      ("./context", ["Context"])] := by
  rfl

end SchemaTypings

import SchemaTypings.Proofs.Consistency
import SchemaTypings.Proofs.Reachability

/-!
# Look-ups in the tables of a schema

What `Associations.build` puts into its tables, in terms of the schema alone.

- `Tabulates key R xs t`: a table has the key of each element of a list, and at each key a value that stands in the
  relation `R` to the last element with the key;
- `Tables s a`: the tables `a` are those of the schema `s`. This holds of whatever `Associations.build` returns
  (`tables_of_build`);
- `members_eq`, `implementors_eq`: the members of a union, where names are distinct, and the implementors of an
  interface, where the schema is unambiguous.
-/

namespace SchemaTypings

variable {α β : Type}

/-! ## Tables by key -/

/-- The last element of a list with the given key. -/
def lastOf (key : α → String) (xs : List α) (k : String) : Option α := xs.reverse.find? (key · == k)

theorem mem_of_lastOf {key : α → String} {xs : List α} {k : String} {x : α} (h : lastOf key xs k = some x) :
    x ∈ xs ∧ key x = k :=
  ⟨List.mem_reverse.1 (List.mem_of_find?_eq_some h), by simpa using List.find?_some h⟩

/-- Where keys are distinct, an element is the last one with its key. -/
theorem lastOf_of_mem {key : α → String} {xs : List α} (distinct : (xs.map key).Nodup) {x : α} (hx : x ∈ xs) :
    lastOf key xs (key x) = some x := by
  cases h : lastOf key xs (key x) with
  | none => exact absurd (List.find?_eq_none.1 h x (List.mem_reverse.2 hx)) (by simp)
  | some y =>
    obtain ⟨hy, hk⟩ := mem_of_lastOf h
    rw [List.inj_on_of_nodup_map distinct hy hx hk]

/-- Where keys are distinct, the order of the elements does not matter. -/
theorem lastOf_perm {key : α → String} {xs xs' : List α} (perm : xs'.Perm xs) (distinct : (xs.map key).Nodup) :
    lastOf key xs' = lastOf key xs := by
  have distinct' : (xs'.map key).Nodup := (perm.map key).nodup_iff.2 distinct
  funext k
  refine Option.ext fun x => ⟨fun h => ?_, fun h => ?_⟩
  · obtain ⟨hx, rfl⟩ := mem_of_lastOf h
    exact lastOf_of_mem distinct (perm.mem_iff.1 hx)
  · obtain ⟨hx, rfl⟩ := mem_of_lastOf h
    exact lastOf_of_mem distinct' (perm.mem_iff.2 hx)

theorem lastOf_append (key : α → String) (xs ys : List α) (k : String) :
    lastOf key (xs ++ ys) k = (lastOf key ys k).or (lastOf key xs k) := by
  unfold lastOf
  rw [List.reverse_append, List.find?_append]

theorem lastOf_map (key : β → String) (f : α → β) (xs : List α) (k : String) :
    lastOf key (xs.map f) k = (lastOf (key ∘ f) xs k).map f := by
  unfold lastOf
  rw [← List.map_reverse, List.find?_map]
  rfl

theorem lastOf_eq_none {key : α → String} {xs : List α} {k : String} :
    lastOf key xs k = none ↔ ∀ x ∈ xs, key x ≠ k := by
  simp [lastOf, List.find?_eq_none]

/-- A table has a value for the key of each element, made from the last element with the key. -/
structure Tabulates (key : α → String) (R : α → β → Prop) (xs : List α) (t : OrderedMap String β) : Prop where
  sound : ∀ {k v}, t.get? k = some v → ∃ x, lastOf key xs k = some x ∧ R x v
  total : ∀ {x}, x ∈ xs → ∃ v, t.get? (key x) = some v

namespace Tabulates

variable {key : α → String} {R : α → β → Prop} {xs : List α}

/-- Entries that are made one by one can be looked up like the elements that they are made from. -/
theorem of_forall₂ {es : List (String × β)} (h : List.Forall₂ (fun x e => e.1 = key x ∧ R x e.2) xs es) :
    Tabulates key R xs (.ofLast es) := by
  have walk : ∀ {xs : List α} {es : List (String × β)}, List.Forall₂ (fun x e => e.1 = key x ∧ R x e.2) xs es →
      (∀ k v, es.lookup k = some v → ∃ x, xs.find? (key · == k) = some x ∧ R x v) ∧
        ∀ x ∈ xs, ∃ v, es.lookup (key x) = some v := by
    intro xs es h
    induction h with
    | nil => exact ⟨fun k v h => (by cases h), fun x hx => (by cases hx)⟩
    | @cons x e xs es hr _ ih =>
      obtain ⟨k, w⟩ := e
      obtain ⟨rfl, hr⟩ := hr
      constructor
      · intro j v hv
        by_cases hj : j = key x
        · subst hj
          rw [List.lookup_cons_self] at hv
          cases hv
          exact ⟨x, by simp, hr⟩
        · rw [List.lookup_cons, beq_eq_false_iff_ne.2 hj] at hv
          obtain ⟨y, hy, hr⟩ := ih.1 j v hv
          exact ⟨y, by rw [List.find?_cons_of_neg (by simpa using fun e => hj e.symm), hy], hr⟩
      · intro y hy
        by_cases hj : key y = key x
        · exact ⟨w, by rw [hj, List.lookup_cons_self]⟩
        · rw [List.lookup_cons, beq_eq_false_iff_ne.2 hj]
          refine ih.2 y ((List.mem_cons.1 hy).resolve_left fun e => hj (congrArg key e))
  obtain ⟨sound, total⟩ := walk (List.rel_reverse h)
  refine ⟨fun {k v} hv => sound k v ?_, fun {x} hx => ?_⟩
  · rwa [OrderedMap.get?_ofLast] at hv
  · rw [OrderedMap.get?_ofLast]
    exact total x (List.mem_reverse.2 hx)

theorem of_mapM {f : α → Except Fault β} {es : List (String × β)}
    (h : xs.mapM (fun x => do return (key x, ← f x)) = .ok es) :
    Tabulates key (fun x v => f x = .ok v) xs (.ofLast es) := by
  refine of_forall₂ ((mapM_eq_ok.1 h).imp fun x e he => ?_)
  obtain ⟨v, hv, he⟩ := bind_eq_ok.1 he
  cases he
  exact ⟨rfl, hv⟩

theorem of_map (f : α → β) : Tabulates key (fun x v => v = f x) xs (.ofLast (xs.map fun x => (key x, f x))) := by
  refine of_forall₂ ?_
  induction xs with
  | nil => exact .nil
  | cons x xs ih => exact .cons ⟨rfl, rfl⟩ ih

variable {t : OrderedMap String β}

theorem imp {Q : α → β → Prop} (h : Tabulates key R xs t) (imp : ∀ x v, R x v → Q x v) : Tabulates key Q xs t where
  sound hv := by
    obtain ⟨x, hx, hr⟩ := h.sound hv
    exact ⟨x, hx, imp x _ hr⟩
  total := h.total

/-- Where keys are distinct, the table has at the key of an element a value made from that element. -/
theorem get? (h : Tabulates key R xs t) (distinct : (xs.map key).Nodup) {x : α} (hx : x ∈ xs) :
    ∃ v, t.get? (key x) = some v ∧ R x v := by
  obtain ⟨v, hv⟩ := h.total hx
  obtain ⟨y, hy, hr⟩ := h.sound hv
  rw [lastOf_of_mem distinct hx] at hy
  cases hy
  exact ⟨v, hv, hr⟩

theorem get?_eq_none (h : Tabulates key R xs t) {k : String} : t.get? k = none ↔ lastOf key xs k = none := by
  constructor
  · intro hn
    cases hl : lastOf key xs k with
    | none => rfl
    | some x =>
      obtain ⟨hx, rfl⟩ := mem_of_lastOf hl
      obtain ⟨v, hv⟩ := h.total hx
      cases hn.symm.trans hv
  · intro hl
    cases hv : t.get? k with
    | none => rfl
    | some v =>
      obtain ⟨x, hx, -⟩ := h.sound hv
      cases hl.symm.trans hx

/-- Two tables agree at a key if they are made there from the same element, and if that determines the value. -/
theorem get?_eq {Q : α → β → Prop} {ys : List α} {u : OrderedMap String β} (h : Tabulates key R xs t)
    (h' : Tabulates key Q ys u) {k : String} (last : lastOf key ys k = lastOf key xs k)
    (unique : ∀ x v w, x ∈ xs → R x v → Q x w → v = w) : t.get? k = u.get? k := by
  cases hv : t.get? k with
  | none => exact (h'.get?_eq_none.2 (last.trans (h.get?_eq_none.1 hv))).symm
  | some v =>
    obtain ⟨x, hx, hr⟩ := h.sound hv
    obtain ⟨hm, rfl⟩ := mem_of_lastOf hx
    cases hw : u.get? (key x) with
    | none => cases (h'.get?_eq_none.1 hw).symm.trans (last.trans hx)
    | some w =>
      obtain ⟨y, hy, hq⟩ := h'.sound hw
      cases hy.symm.trans (last.trans hx)
      rw [unique x v w hm hr hq]

end Tabulates

/-! ## Implementors -/

/-- Adds an object to a list unless one of its name is there. -/
def joinObject (os : List ObjectType) (o : ObjectType) : List ObjectType :=
  if os.any (·.name == o.name) then os else os ++ [o]

theorem subset_joinObject {os : List ObjectType} {o o' : ObjectType} (h : o' ∈ joinObject os o) : o' ∈ os ∨ o' = o := by
  unfold joinObject at h
  split at h
  · exact .inl h
  · simpa using h

theorem joinObject_of_mem {os : List ObjectType} {o : ObjectType} (h : o ∈ os) : joinObject os o = os := by
  unfold joinObject
  rw [if_pos (List.any_eq_true.2 ⟨o, h, by simp⟩)]

/-- A loop of loops is one loop over pairs. -/
theorem foldlM_foldlM {γ : Type} (f : γ → α → β → Except Fault γ) (g : α → List β) : ∀ (xs : List α) (c : γ),
    xs.foldlM (fun c x => (g x).foldlM (f · x) c) c =
      (xs.flatMap fun x => (g x).map (x, ·)).foldlM (fun c p => f c p.1 p.2) c
  | [], _ => rfl
  | x :: xs, c => by
    rw [List.foldlM_cons, List.flatMap_cons, List.foldlM_append, List.foldlM_map]
    congr 1
    funext c
    exact foldlM_foldlM f g xs c

namespace Schema

/-- The declarations of conformance: each object with each name after its `implements`. -/
def conformances (s : Schema) : List (ObjectType × String) := s.objects.flatMap fun o => o.implements.map (o, ·)

/-- The objects that declare conformance to an interface, in order and as often as they declare it. -/
def declaring (s : Schema) (interface : String) : List ObjectType :=
  (s.conformances.filter (·.2 == interface)).map Prod.fst

variable {s : Schema}

theorem mem_declaring {interface : String} {o : ObjectType} :
    o ∈ s.declaring interface ↔ o ∈ s.objects ∧ interface ∈ o.implements := by
  simp only [declaring, conformances, List.mem_map, List.mem_filter, List.mem_flatMap, beq_iff_eq]
  constructor
  · rintro ⟨_, ⟨⟨o, ho, n, hn, rfl⟩, rfl⟩, rfl⟩
    exact ⟨ho, hn⟩
  · rintro ⟨ho, hn⟩
    exact ⟨(o, interface), ⟨⟨o, ho, interface, hn, rfl⟩, rfl⟩, rfl⟩

theorem map_name_declaring (interface : String) :
    (s.declaring interface).map ObjectType.name = s.declarers interface := by
  simp only [declaring, conformances, declarers, List.filter_flatMap, List.map_flatMap, List.filter_map, List.map_map]
  rfl

end Schema

theorem addImplementor_eq_ok {o : ObjectType} {table table' : OrderedMap String (List ObjectType)} {interface : String}
    (h : Schema.addImplementor o table interface = .ok table') (k : String) :
    table'.get? k = (table.get? k).map fun os => if k = interface then joinObject os o else os := by
  unfold Schema.addImplementor at h
  cases ht : table.get? interface with
  | none => simp [ht] at h
  | some os =>
    simp only [ht, Except.ok.injEq] at h
    subst h
    by_cases hk : k = interface
    · subst hk
      unfold joinObject
      split <;> simp_all
    · split <;> simp [hk]

/-- After a series of conformances each interface has been joined by the objects that declare it. -/
theorem foldlM_addImplementor_eq_ok : ∀ {ps : List (ObjectType × String)}
    {table table' : OrderedMap String (List ObjectType)},
    ps.foldlM (fun t p => Schema.addImplementor p.1 t p.2) table = .ok table' → ∀ k,
      table'.get? k = (table.get? k).map fun os => ((ps.filter (·.2 == k)).map Prod.fst).foldl joinObject os
  | [], table, table', h, k => by
    cases h
    simp
  | (o, i) :: ps, table, table', h, k => by
    rw [List.foldlM_cons] at h
    obtain ⟨next, hn, h⟩ := bind_eq_ok.1 h
    rw [foldlM_addImplementor_eq_ok h k, addImplementor_eq_ok hn k, Option.map_map]
    congr 1
    funext os
    by_cases hk : k = i
    · simp [hk]
    · have hi : ¬i = k := fun e => hk e.symm
      simp [hk, hi]

theorem mem_foldl_joinObject {o : ObjectType} {ps os : List ObjectType} (h : o ∈ ps.foldl joinObject os) :
    o ∈ os ∨ o ∈ ps := by
  induction ps generalizing os with
  | nil => exact .inl h
  | cons p ps ih =>
    rcases ih h with h | h
    · rcases subset_joinObject h with h | rfl
      · exact .inl h
      · exact .inr List.mem_cons_self
    · exact .inr (List.mem_cons_of_mem _ h)

/-- Objects that are there already are not added. -/
theorem foldl_joinObject_of_subset : ∀ {ps os : List ObjectType}, ps ⊆ os → ps.foldl joinObject os = os
  | [], _, _ => rfl
  | p :: ps, os, h => by
    rw [List.foldl_cons, joinObject_of_mem (h List.mem_cons_self)]
    exact foldl_joinObject_of_subset fun q hq => h (List.mem_cons_of_mem _ hq)

/-! ## The tables of a schema -/

namespace Schema

variable {s : Schema}

/-- The table of input types. -/
def inputTable (s : Schema) : OrderedMap String InputType := .ofLast (s.inputs.map fun i => (i.name, i))

/-- The input type of a name; of several with the name the last counts. -/
def input? (s : Schema) : String → Option InputType := lastOf InputType.name s.inputs

/-- The fields that are looked up under a name. Of several objects and interfaces with the name the last interface
counts, or else the last object. -/
def fieldsOf? (s : Schema) (name : String) : Option (List Field) := (lastOf Prod.fst s.fieldOwners name).map Prod.snd

theorem map_fst_fieldOwners (s : Schema) :
    s.fieldOwners.map Prod.fst = s.objects.map ObjectType.name ++ s.interfaces.map InterfaceType.name := by
  simp [fieldOwners, Function.comp_def]

/-- The names of the unions that an object belongs to, in order and as often as they list it. -/
def unionsOf (s : Schema) (object : String) : List String :=
  s.unions.flatMap fun u => (u.members.filter (· == object)).map fun _ => u.name

theorem object_eq_ok {name : String} {o : ObjectType} :
    s.object name = .ok o ↔ lastOf ObjectType.name s.objects name = some o := by
  unfold Schema.object lastOf
  split
  · rename_i h
    simp [h]
  · rename_i h
    simp [h]

theorem exists_object {name : String} (h : s.Defines .object name) : ∃ o, s.object name = .ok o := by
  obtain ⟨o, ho, rfl⟩ := defines_object.1 h
  cases hf : lastOf ObjectType.name s.objects o.name with
  | some o' => exact ⟨o', object_eq_ok.2 hf⟩
  | none => exact absurd (List.find?_eq_none.1 hf o (List.mem_reverse.2 (mem_objects.2 ho))) (by simp)

theorem exists_input? {name : String} (h : s.Defines .input name) : ∃ i, s.input? name = some i := by
  obtain ⟨i, hi, rfl⟩ := defines_input.1 h
  cases hf : s.input? i.name with
  | some j => exact ⟨j, rfl⟩
  | none => exact absurd (List.find?_eq_none.1 hf i (List.mem_reverse.2 (mem_inputs.2 hi))) (by simp)

theorem mem_of_object {name : String} {o : ObjectType} (h : s.object name = .ok o) : o ∈ s.objects ∧ o.name = name :=
  mem_of_lastOf (object_eq_ok.1 h)

/-- Objects that are found for names have these names. -/
theorem map_name_of_objects {names : List String} {os : List ObjectType} (h : names.mapM s.object = .ok os) :
    os.map ObjectType.name = names := by
  have same : os.map ObjectType.name = names.map id := map_eq_of_mapM h fun n o found => (mem_of_object found).2
  rwa [List.map_id] at same

theorem mem_fieldOwners {p : String × List Field} : p ∈ s.fieldOwners ↔
    (∃ o ∈ s.objects, p = (o.name, o.fields)) ∨ ∃ i ∈ s.interfaces, p = (i.name, i.fields) := by
  simp only [fieldOwners, List.mem_append, List.mem_map, eq_comm]

end Schema

/-- The tables of a schema. -/
structure Tables (s : Schema) (a : Associations) : Prop where
  inputTypes : a.inputTypes.get? = s.input?
  inputsByOwner :
    Tabulates Prod.fst (fun o ns => reachableInputs a.inputTypes o.2 = .ok ns) s.fieldOwners a.inputsByOwner
  enumsByOwner : Tabulates Prod.fst (fun o es => es = referencedEnums o.2) s.fieldOwners a.enumsByOwner
  membersByUnion : Tabulates UnionType.name (fun u os => u.members.mapM s.object = .ok os) s.unions a.membersByUnion
  unionsByMember : Tabulates ObjectType.name
    (fun o us => us = s.unionsOf o.name) s.objects a.unionsByMember
  implementors : ∃ listed,
    Tabulates InterfaceType.name (fun i os => i.implementors.mapM s.object = .ok os) s.interfaces listed ∧
    ∀ k, a.implementorsByInterface.get? k = (listed.get? k).map fun os => (s.declaring k).foldl joinObject os

variable {s : Schema} {a : Associations}

theorem get?_inputTable : s.inputTable.get? = s.input? := by
  have table : Tabulates InputType.name (fun i j => j = i) s.inputs s.inputTable := Tabulates.of_map id
  funext k
  cases h : s.inputTable.get? k with
  | some i =>
    obtain ⟨j, hj, rfl⟩ := table.sound h
    exact hj.symm
  | none =>
    cases hi : s.input? k with
    | none => rfl
    | some i =>
      obtain ⟨hm, rfl⟩ := mem_of_lastOf hi
      obtain ⟨j, hj⟩ := table.total hm
      exact absurd (h.symm.trans hj) (by simp)

theorem implementorTable_eq (s : Schema) : s.implementorTable =
    s.listedImplementors >>= fun t => s.conformances.foldlM (fun t p => Schema.addImplementor p.1 t p.2) t := by
  unfold Schema.implementorTable Schema.conformances
  congr 1
  funext t
  exact foldlM_foldlM (fun t o n => Schema.addImplementor o t n) ObjectType.implements s.objects t

theorem Schema.mem_unionsOf {object n : String} :
    n ∈ s.unionsOf object ↔ ∃ u ∈ s.unions, u.name = n ∧ object ∈ u.members := by
  simp only [unionsOf, List.mem_flatMap, List.mem_map, List.mem_filter, beq_iff_eq]
  constructor
  · rintro ⟨u, hu, _, ⟨hm, rfl⟩, rfl⟩
    exact ⟨u, hu, rfl, hm⟩
  · rintro ⟨u, hu, rfl, hm⟩
    exact ⟨u, hu, object, ⟨hm, rfl⟩, rfl⟩

/-- The table of members lists an object for a union as often as the union itself does. -/
theorem unionTable_eq {members : List (String × List ObjectType)} (h : s.memberTable = .ok members) (object : String) :
    (members.flatMap fun (union, os) => (os.filter (·.name == object)).map fun _ => union) = s.unionsOf object := by
  have walk : ∀ {us : List UnionType} {ms : List (String × List ObjectType)},
      List.Forall₂ (fun u m => (do return (u.name, ← u.members.mapM s.object)) = Except.ok m) us ms →
        (ms.flatMap fun (union, os) => (os.filter (·.name == object)).map fun _ => union) =
          us.flatMap fun u => (u.members.filter (· == object)).map fun _ => u.name := by
    intro us ms h
    induction h with
    | nil => rfl
    | @cons u m us ms step _ ih =>
      obtain ⟨os, hos, step⟩ := bind_eq_ok.1 step
      cases step
      have names : os.map ObjectType.name = u.members := Schema.map_name_of_objects hos
      rw [List.flatMap_cons, List.flatMap_cons, ih, ← names, List.filter_map, List.map_map]
      rfl
  exact walk (mapM_eq_ok.1 h)

/-- Whatever is built from a schema are its tables. -/
theorem tables_of_build (h : Associations.build s = .ok a) : Tables s a := by
  unfold Associations.build at h
  rw [implementorTable_eq] at h
  obtain ⟨implementors, hi, h⟩ := bind_eq_ok.1 h
  obtain ⟨base, hb, hi⟩ := bind_eq_ok.1 hi
  obtain ⟨listed, hl, hb⟩ := bind_eq_ok.1 hb
  obtain ⟨members, hm, h⟩ := bind_eq_ok.1 h
  obtain ⟨owners, ho, h⟩ := bind_eq_ok.1 h
  cases hb
  cases h
  exact {
    inputTypes := get?_inputTable
    inputsByOwner := .of_mapM ho
    enumsByOwner := .of_map _
    membersByUnion := .of_mapM hm
    unionsByMember := (Tabulates.of_map _).imp fun o us hus => hus.trans (unionTable_eq hm o.name)
    implementors := ⟨.ofLast listed, .of_mapM hl, foldlM_addImplementor_eq_ok hi⟩ }

/-! ## References in a schema -/

namespace Schema

theorem references_of_owner {p : String × List Field} (hp : p ∈ s.fieldOwners) {f : Field} (hf : f ∈ p.2) {r : TypeRef}
    (hr : r ∈ f.references) : r ∈ s.references := by
  rcases mem_fieldOwners.1 hp with ⟨o, ho, rfl⟩ | ⟨i, hi, rfl⟩
  · exact List.mem_flatMap.2 ⟨.object o, mem_objects.1 ho, List.mem_flatMap.2 ⟨f, hf, hr⟩⟩
  · exact List.mem_flatMap.2 ⟨.interface i, mem_interfaces.1 hi, List.mem_flatMap.2 ⟨f, hf, hr⟩⟩

theorem references_of_input {i : InputType} (hi : i ∈ s.inputs) {b : Argument} (hb : b ∈ i.fields) :
    b.type ∈ s.references :=
  List.mem_flatMap.2 ⟨.input i, mem_inputs.1 hi, List.mem_map_of_mem hb⟩

end Schema

/-! ## What is looked up -/

theorem find_congr {t u : OrderedMap String β} {name : String} (same : t.get? name = u.get? name) :
    Associations.find t name = Associations.find u name := by
  unfold Associations.find
  rw [same]

theorem find_eq_ok {t : OrderedMap String β} {name : String} {v : β} :
    Associations.find t name = .ok v ↔ t.get? name = some v := by
  unfold Associations.find
  cases t.get? name <;> simp

namespace Tables

variable (t : Tables s a)

include t

theorem inputType_eq_ok {name : String} {i : InputType} : a.inputType name = .ok i ↔ s.input? name = some i := by
  rw [← t.inputTypes]
  exact find_eq_ok

/-- The input types of an owner are those that the arguments of its fields reach. -/
theorem inputsOf_eq_ok {owner : String} {ns : List String} (h : a.inputsOf owner = .ok ns) :
    ∃ fields, s.fieldsOf? owner = some fields ∧ ns.Nodup ∧
      (∀ n, n ∈ ns ↔ Reaches s.input? (fields.flatMap Field.arguments) n) ∧ ∀ n ∈ ns, ∃ i, s.input? n = some i := by
  obtain ⟨⟨owner, fields⟩, hp, hr⟩ := t.inputsByOwner.sound (find_eq_ok.1 h)
  refine ⟨fields, by rw [Schema.fieldsOf?, hp]; rfl, nodup_reachableFrom hr, fun n => ?_, fun n hn => ?_⟩
  · rw [← t.inputTypes]
    exact mem_reachableFrom_iff hr
  · rw [← t.inputTypes]
    exact exists_input_of_mem hr hn

theorem exists_inputsOf {p : String × List Field} (hp : p ∈ s.fieldOwners) : ∃ ns, a.inputsOf p.1 = .ok ns := by
  obtain ⟨ns, h⟩ := t.inputsByOwner.total hp
  exact ⟨ns, find_eq_ok.2 h⟩

theorem enumsOf_eq_ok {owner : String} {ns : List String} (h : a.enumsOf owner = .ok ns) :
    ∃ fields, s.fieldsOf? owner = some fields ∧ ns = referencedEnums fields := by
  obtain ⟨⟨owner, fields⟩, hp, rfl⟩ := t.enumsByOwner.sound (find_eq_ok.1 h)
  exact ⟨fields, by rw [Schema.fieldsOf?, hp]; rfl, rfl⟩

theorem exists_enumsOf {p : String × List Field} (hp : p ∈ s.fieldOwners) : ∃ ns, a.enumsOf p.1 = .ok ns := by
  obtain ⟨ns, h⟩ := t.enumsByOwner.total hp
  exact ⟨ns, find_eq_ok.2 h⟩

theorem exists_implementors {name : String} (h : s.Defines .interface name) : ∃ os, a.implementors name = .ok os := by
  obtain ⟨i, hi, rfl⟩ := Schema.defines_interface.1 h
  obtain ⟨listed, table, joined⟩ := t.implementors
  obtain ⟨os, hos⟩ := table.total (Schema.mem_interfaces.2 hi)
  exact ⟨_, find_eq_ok.2 (by rw [joined, hos]; rfl)⟩

/-- Implementors are objects of the schema. -/
theorem mem_of_implementors {name : String} {os : List ObjectType} (h : a.implementors name = .ok os) {o : ObjectType}
    (ho : o ∈ os) : o ∈ s.objects := by
  obtain ⟨listed, table, joined⟩ := t.implementors
  have found := find_eq_ok.1 h
  rw [joined] at found
  obtain ⟨base, hb, rfl⟩ := Option.map_eq_some_iff.1 found
  rcases mem_foldl_joinObject ho with ho | ho
  · obtain ⟨i, -, hos⟩ := table.sound hb
    obtain ⟨n, -, hn⟩ := exists_of_mem_mapM hos ho
    exact (Schema.mem_of_object hn).1
  · exact (Schema.mem_declaring.1 ho).1

theorem exists_members {name : String} (h : s.Defines .union name) : ∃ os, a.members name = .ok os := by
  obtain ⟨u, hu, rfl⟩ := Schema.defines_union.1 h
  obtain ⟨os, hos⟩ := t.membersByUnion.total (Schema.mem_unions.2 hu)
  exact ⟨os, find_eq_ok.2 hos⟩

/-- Members of unions are objects of the schema. -/
theorem mem_of_members {name : String} {os : List ObjectType} (h : a.members name = .ok os) {o : ObjectType}
    (ho : o ∈ os) : o ∈ s.objects := by
  obtain ⟨u, -, hos⟩ := t.membersByUnion.sound (find_eq_ok.1 h)
  obtain ⟨n, -, hn⟩ := exists_of_mem_mapM hos ho
  exact (Schema.mem_of_object hn).1

/-- The unions of an object are those that list its name. -/
theorem unionsContaining_eq {o : ObjectType} (ho : o ∈ s.objects) : ∃ us, a.unionsContaining o.name = .ok us ∧
    ∀ n, n ∈ us ↔ ∃ u ∈ s.unions, u.name = n ∧ o.name ∈ u.members := by
  obtain ⟨us, hus⟩ := t.unionsByMember.total ho
  obtain ⟨o', ho', hr⟩ := t.unionsByMember.sound hus
  refine ⟨us, find_eq_ok.2 hus, fun n => ?_⟩
  rw [hr, (mem_of_lastOf ho').2]
  exact Schema.mem_unionsOf

end Tables

/-! ## Schemas with distinct names -/

namespace Schema

section Distinct

variable (distinct : (s.definitions.map Definition.name).Nodup)

include distinct

/-- Definitions of one category have distinct names. -/
theorem nodup_filterMap {f : Definition → Option α} {key : α → String} (named : ∀ d x, f d = some x → key x = d.name) :
    ((s.definitions.filterMap f).map key).Nodup := by
  refine distinct.sublist ?_
  have walk : ∀ ds : List Definition, ((ds.filterMap f).map key).Sublist (ds.map Definition.name) := by
    intro ds
    induction ds with
    | nil => exact List.Sublist.refl _
    | cons d ds ih =>
      cases hd : f d with
      | none =>
        rw [List.filterMap_cons_none hd]
        exact ih.cons _
      | some x =>
        rw [List.filterMap_cons_some hd, List.map_cons, named d x hd]
        exact ih.cons_cons _
  exact walk s.definitions

theorem nodup_objects : (s.objects.map ObjectType.name).Nodup :=
  nodup_filterMap distinct (by rintro ⟨⟩ x h <;> cases h; rfl)

theorem nodup_interfaces : (s.interfaces.map InterfaceType.name).Nodup :=
  nodup_filterMap distinct (by rintro ⟨⟩ x h <;> cases h; rfl)

theorem nodup_unions : (s.unions.map UnionType.name).Nodup :=
  nodup_filterMap distinct (by rintro ⟨⟩ x h <;> cases h; rfl)

theorem nodup_inputs : (s.inputs.map InputType.name).Nodup :=
  nodup_filterMap distinct (by rintro ⟨⟩ x h <;> cases h; rfl)

theorem nodup_entities : (s.entities.map Entity.name).Nodup :=
  nodup_filterMap distinct (by rintro ⟨⟩ x h <;> cases h <;> rfl)

theorem nodup_enums : (s.enums.map EnumType.name).Nodup :=
  nodup_filterMap distinct (by rintro ⟨⟩ x h <;> cases h; rfl)

/-- A name has one definition. -/
theorem eq_of_name_eq {d d' : Definition} (hd : d ∈ s.definitions) (hd' : d' ∈ s.definitions) (h : d.name = d'.name) :
    d = d' :=
  List.inj_on_of_nodup_map distinct hd hd' h

theorem nodup_fieldOwners : (s.fieldOwners.map Prod.fst).Nodup := by
  have disjoint : ∀ n ∈ s.objects.map ObjectType.name, ∀ m ∈ s.interfaces.map InterfaceType.name, n ≠ m := by
    intro n hn m hm e
    obtain ⟨o, ho, rfl⟩ := List.mem_map.1 hn
    obtain ⟨i, hi, rfl⟩ := List.mem_map.1 hm
    cases eq_of_name_eq distinct (mem_objects.1 ho) (mem_interfaces.1 hi) e
  simpa [fieldOwners, List.map_map, Function.comp_def] using
    List.nodup_append.2 ⟨nodup_objects distinct, nodup_interfaces distinct, disjoint⟩

theorem fieldsOf?_eq {p : String × List Field} (hp : p ∈ s.fieldOwners) : s.fieldsOf? p.1 = some p.2 := by
  rw [fieldsOf?, lastOf_of_mem (nodup_fieldOwners distinct) hp]
  rfl

theorem object_name_eq {o : ObjectType} (ho : o ∈ s.objects) : s.object o.name = .ok o :=
  object_eq_ok.2 (lastOf_of_mem (nodup_objects distinct) ho)

/-- The members of a union are the objects that it lists, in the order in which it lists them. -/
theorem members_eq (t : Tables s a) {w : UnionType} (hw : w ∈ s.unions) :
    ∃ os, a.members w.name = .ok os ∧ os.map ObjectType.name = w.members ∧ ∀ o ∈ os, o ∈ s.objects := by
  obtain ⟨os, hos, hr⟩ := t.membersByUnion.get? (nodup_unions distinct) hw
  exact ⟨os, find_eq_ok.2 hos, map_name_of_objects hr, fun o ho => t.mem_of_members (find_eq_ok.2 hos) ho⟩

/-- An interface that lists those who declare it has no further implementors. -/
theorem implementors_of_listed (t : Tables s a) {i : InterfaceType} (hi : i ∈ s.interfaces)
    (listed : i.implementors = s.declarers i.name) : a.implementors i.name = .ok (s.declaring i.name) := by
  obtain ⟨base, table, joined⟩ := t.implementors
  obtain ⟨os, hos, hr⟩ := table.get? (nodup_interfaces distinct) hi
  have same : os = s.declaring i.name := by
    have loop : (s.declarers i.name).mapM s.object = .ok (s.declaring i.name) := by
      rw [← map_name_declaring, mapM_eq_ok, List.forall₂_map_left_iff, List.forall₂_same]
      exact fun o ho => object_name_eq distinct (mem_declaring.1 ho).1
    rw [listed, loop] at hr
    cases hr
    rfl
  refine find_eq_ok.2 ?_
  rw [joined, hos, same, Option.map_some, foldl_joinObject_of_subset (List.Subset.refl _)]

end Distinct

/-! ## Unambiguous schemas -/

namespace Unambiguous

variable (u : s.Unambiguous)

include u

variable (t : Tables s a)

include t

/-- The implementors of an interface are the objects that declare conformance to it. -/
theorem implementors_eq {i : InterfaceType} (hi : i ∈ s.interfaces) :
    a.implementors i.name = .ok (s.declaring i.name) :=
  implementors_of_listed u.distinct t hi (u.implementors i hi)

end Unambiguous

end Schema

end SchemaTypings

import SchemaTypings.Proofs.Identifiers

/-!
# Drafts of declarations

A draft does two things at once: it renders declarations, and it takes a name for each of them. Here the two are told
apart.

- `Draft.Declares`: a draft takes the given names in their order, and what it renders does not depend on them. It
  succeeds exactly if the names are new and the rendering succeeds; otherwise it ends with a fault of the rendering, or
  with the first name that repeats.
- `draft_declares`: the draft of an entity takes `declaredNames` and renders `EntityDeclarations.content`.
- `build_eq_ok`, `build_eq_error`: the declarations of an entity, or the fault in their place.
- `Draft.Persists`: what a draft comes to persists in another one, whatever names have been taken.
-/

namespace SchemaTypings

open TypeScript

/-! ## Repeated names -/

/-- The names are distinct, and none of them is taken. -/
def Fresh (taken names : List String) : Prop := names.Nodup ∧ ∀ n ∈ names, n ∉ taken

/-- The first of the names that an earlier one repeats, or that was taken before. -/
def FirstRepeat (taken names : List String) (n : String) : Prop :=
  ∃ before after, names = before ++ n :: after ∧ Fresh taken before ∧ (n ∈ before ∨ n ∈ taken)

theorem fresh_nil (taken : List String) : Fresh taken [] := ⟨List.nodup_nil, fun _ h => by cases h⟩

/-- Names are new together if the later ones are new after the earlier ones have been taken. -/
theorem fresh_append {taken ns ms : List String} :
    Fresh taken (ns ++ ms) ↔ Fresh taken ns ∧ Fresh (ns.reverse ++ taken) ms := by
  simp only [Fresh, List.nodup_append, List.mem_append, List.mem_reverse]
  constructor
  · rintro ⟨⟨hn, hm, hd⟩, ht⟩
    refine ⟨⟨hn, fun n h => ht n (.inl h)⟩, hm, fun m h => ?_⟩
    rintro (h' | h')
    · exact hd m h' m h rfl
    · exact ht m (.inr h) h'
  · rintro ⟨⟨hn, ht⟩, hm, hd⟩
    refine ⟨⟨hn, hm, fun n h m h' e => hd m h' (.inl (e ▸ h))⟩, ?_⟩
    rintro n (h | h)
    · exact ht n h
    · exact fun h' => hd n h (.inr h')

theorem fresh_singleton {taken : List String} {n : String} : Fresh taken [n] ↔ n ∉ taken := by
  simp [Fresh]

theorem FirstRepeat.append_left {taken ns : List String} {n : String} (h : FirstRepeat taken ns n)
    (ms : List String) : FirstRepeat taken (ns ++ ms) n := by
  obtain ⟨before, after, rfl, hf, hn⟩ := h
  exact ⟨before, after ++ ms, by simp, hf, hn⟩

theorem FirstRepeat.append_right {taken ns ms : List String} {n : String} (hf : Fresh taken ns)
    (h : FirstRepeat (ns.reverse ++ taken) ms n) : FirstRepeat taken (ns ++ ms) n := by
  obtain ⟨before, after, rfl, hb, hn⟩ := h
  refine ⟨ns ++ before, after, by simp, fresh_append.2 ⟨hf, hb⟩, ?_⟩
  simp only [List.mem_append, List.mem_reverse] at hn ⊢
  rcases hn with h | h | h
  · exact .inl (.inr h)
  · exact .inl (.inl h)
  · exact .inr h

/-- A name that repeats occurs twice. -/
theorem FirstRepeat.duplicate {ns : List String} {n : String} (h : FirstRepeat [] ns n) : 2 ≤ ns.count n := by
  obtain ⟨before, after, rfl, -, hn⟩ := h
  have hb : 0 < before.count n := List.count_pos_iff.2 (by simpa using hn)
  rw [List.count_append, List.count_cons_self]
  omega

/-! ## Names and contents of a draft -/

/-- A draft in the unit of an entity takes the given names in their order, and renders what `content` gives. -/
structure Draft.Declares {α : Type} (entity : String) (m : Draft α) (names : List String) (content : Except Fault α) :
    Prop where
  run_ok : ∀ {taken a}, Fresh taken names → content = .ok a → m.run taken = .ok (a, names.reverse ++ taken)
  of_run : ∀ {taken a taken'}, m.run taken = .ok (a, taken') →
    Fresh taken names ∧ content = .ok a ∧ taken' = names.reverse ++ taken
  fault : ∀ {taken f}, m.run taken = .error f →
    content = .error f ∨ ∃ n, FirstRepeat taken names n ∧ f = .duplicateDeclaration entity n

namespace Draft

variable {α β : Type} {entity : String}

theorem run_bind (m : Draft α) (k : α → Draft β) (taken : List String) :
    (m >>= k).run taken = m.run taken >>= fun r => (k r.1).run r.2 := rfl

theorem run_declare (entity name : String) (taken : List String) :
    (declare entity name).run taken =
      if name ∈ taken then .error (.duplicateDeclaration entity name) else .ok ((), name :: taken) := by
  unfold declare
  rw [run_bind]
  show (if name ∈ taken then _ else _ : Draft Unit).run taken = _
  split <;> rfl

theorem declares_declare (name : String) : Declares entity (declare entity name) [name] (.ok ()) where
  run_ok := by
    rintro taken ⟨⟩ hf -
    rw [run_declare, if_neg (fresh_singleton.1 hf)]
    rfl
  of_run := by
    rintro taken ⟨⟩ taken' h
    rw [run_declare] at h
    split at h
    · cases h
    · rename_i hn
      cases h
      exact ⟨fresh_singleton.2 hn, rfl, rfl⟩
  fault := by
    intro taken f h
    rw [run_declare] at h
    split at h
    · rename_i hn
      cases h
      exact .inr ⟨name, ⟨[], [], rfl, fresh_nil _, .inr hn⟩, rfl⟩
    · cases h

/-- A computation without declarations takes no name. -/
theorem declares_lift (x : Except Fault α) : Declares entity (liftM x : Draft α) [] x where
  run_ok := by
    intro taken a _ h
    subst h
    rfl
  of_run := by
    intro taken a taken' h
    cases x with
    | ok b =>
      cases h
      exact ⟨fresh_nil _, rfl, rfl⟩
    | error e => cases h
  fault := by
    intro taken f h
    cases x with
    | ok b => cases h
    | error e =>
      cases h
      exact .inl rfl

theorem declares_pure (a : α) : Declares entity (pure a : Draft α) [] (.ok a) := declares_lift (.ok a)

/-- Names of a sequence of drafts follow one another. -/
theorem Declares.bind {m : Draft α} {k : α → Draft β} {ns ms : List String} {x : Except Fault α}
    {y : α → Except Fault β} (hm : Declares entity m ns x) (hk : ∀ a, x = .ok a → Declares entity (k a) ms (y a)) :
    Declares entity (m >>= k) (ns ++ ms) (x >>= y) where
  run_ok := by
    intro taken b hf h
    obtain ⟨hn, hms⟩ := fresh_append.1 hf
    obtain ⟨a, ha, hb⟩ := bind_eq_ok.1 h
    rw [run_bind, hm.run_ok hn ha, ok_bind, (hk a ha).run_ok hms hb]
    simp
  of_run := by
    intro taken b taken' h
    rw [run_bind] at h
    obtain ⟨⟨a, t⟩, ha, hb⟩ := bind_eq_ok.1 h
    obtain ⟨hn, hx, rfl⟩ := hm.of_run ha
    obtain ⟨hms, hy, rfl⟩ := (hk a hx).of_run hb
    exact ⟨fresh_append.2 ⟨hn, hms⟩, bind_eq_ok.2 ⟨a, hx, hy⟩, by simp⟩
  fault := by
    intro taken f h
    rw [run_bind] at h
    rcases bind_eq_error.1 h with h | ⟨⟨a, t⟩, ha, hb⟩
    · rcases hm.fault h with h | ⟨n, hn, rfl⟩
      · exact .inl (bind_eq_error.2 (.inl h))
      · exact .inr ⟨n, hn.append_left ms, rfl⟩
    · obtain ⟨hn, hx, rfl⟩ := hm.of_run ha
      rcases (hk a hx).fault hb with h | ⟨n, hr, rfl⟩
      · exact .inl (bind_eq_error.2 (.inr ⟨a, hx, h⟩))
      · exact .inr ⟨n, hr.append_right hn, rfl⟩

/-- A name that is declared before the rest. -/
theorem Declares.cons {k : Unit → Draft β} {name : String} {ms : List String} {y : Except Fault β}
    (h : Declares entity (k ()) ms y) : Declares entity (declare entity name >>= k) (name :: ms) y :=
  (declares_declare name).bind fun _ _ => h

/-- A loop that takes one name in each step. -/
theorem declares_mapM {γ : Type} {f : γ → Draft β} {name : γ → String} {g : γ → Except Fault β} :
    ∀ (xs : List γ), (∀ x ∈ xs, Declares entity (f x) [name x] (g x)) →
      Declares entity (xs.mapM f) (xs.map name) (xs.mapM g)
  | [], _ => by
    rw [List.mapM_nil, List.mapM_nil]
    exact declares_pure []
  | x :: xs, h => by
    rw [List.mapM_cons, List.mapM_cons]
    refine (h x List.mem_cons_self).bind fun y _ => ?_
    rw [← List.append_nil (xs.map name)]
    exact (declares_mapM xs fun z hz => h z (List.mem_cons_of_mem _ hz)).bind fun ys _ => declares_pure _

end Draft

/-! ## Drafts that persist -/

namespace Draft

variable {α β : Type} {P : Fault → Prop}

/-- What a draft comes to persists in another one, with the same names taken. -/
def Persists (P : Fault → Prop) (m m' : Draft α) : Prop :=
  ∀ taken, SchemaTypings.Persists P (m.run taken) (m'.run taken)

theorem Persists.refl (m : Draft α) : Persists P m m := fun _ => .refl _

theorem Persists.bind {m m' : Draft α} {k k' : α → Draft β} (first : Persists P m m')
    (rest : ∀ a, Persists P (k a) (k' a)) : Persists P (m >>= k) (m' >>= k') := fun taken => by
  rw [run_bind, run_bind]
  exact (first taken).bind fun r _ => rest r.1 r.2

/-- A computation without declarations in front of the rest. -/
theorem Persists.lift_bind {x y : Except Fault α} {k k' : α → Draft β} (first : SchemaTypings.Persists P x y)
    (rest : ∀ a, x = .ok a → Persists P (k a) (k' a)) : Persists P (liftM x >>= k) (liftM y >>= k') := fun taken => by
  have run : ∀ (x : Except Fault α) (k : α → Draft β), (liftM x >>= k).run taken = x >>= fun a => (k a).run taken :=
    fun x k => by cases x <;> rfl
  rw [run, run]
  exact first.bind fun a ha => rest a ha taken

theorem Persists.mapM {γ : Type} {f g : γ → Draft β} : ∀ {xs : List γ}, (∀ x ∈ xs, Persists P (f x) (g x)) →
    Persists P (xs.mapM f) (xs.mapM g)
  | [], _ => .refl _
  | x :: xs, h => by
    rw [List.mapM_cons, List.mapM_cons]
    refine (h x List.mem_cons_self).bind fun y => ?_
    exact (Persists.mapM fun z hz => h z (List.mem_cons_of_mem _ hz)).bind fun ys => .refl _

end Draft

/-! ## The draft of an entity -/

/-- The names that the unit of an entity declares for its fields and itself. -/
def Projection.ownNames (p : Projection) (switches : Switches) (e : Entity) : List String :=
  (e.fields.filter fun f => !f.arguments.isEmpty).map Field.argumentsName ++
    (e.fields.map Field.resolverName ++
      (aggregateName e.name :: (p.entityDefaults? switches e).toList.map Constant.name))

/-- All names that the unit of an entity declares, those of its input types first. -/
def Projection.declaredNames (p : Projection) (switches : Switches) (e : Entity) (inputs : List InputType) :
    List String :=
  inputs.map InputType.name ++ p.ownNames switches e

namespace EntityDeclarations

/-- The declarations of an entity, whatever their names. -/
def content (p : Projection) (context : TypeExpr) (switches : Switches) (e : Entity) :
    Except Fault EntityDeclarations := do
  let inputs ← p.inputTypes e
  let enums ← p.enums inputs e
  let inputInterfaces ← inputs.mapM fun i => do return .interface (← p.inputInterface i)
  let argumentInterfaces ← (e.fields.filter fun f => !f.arguments.isEmpty).mapM fun f => do
    return .interface (← p.argumentsInterface f)
  let params : ResolverParams := ⟨← p.entityType e, context⟩
  let resolvers ← e.fields.mapM fun f => do return .alias (← p.resolverAlias params e f)
  let typeMembers ← p.typeMembers context e
  let aggregate : Interface := ⟨aggregateName e.name, none, fieldMembers e ++ typeMembers⟩
  let hasTypeOf := match e with
    | .object _ => !typeMembers.isEmpty
    | _ => false
  return ⟨inputInterfaces ++ argumentInterfaces ++ resolvers ++ [.interface aggregate] ++
    (p.entityDefaults? switches e).toList.map .constant, hasTypeOf, enums⟩

variable {p : Projection} {context : TypeExpr} {switches : Switches} {e : Entity}

open Draft

/-- The default resolvers only take a name. -/
theorem declares_constants (cs : List Constant) :
    Declares e.name (cs.mapM fun c => do declare e.name c.name; return .constant c) (cs.map Constant.name)
      (.ok (cs.map Declaration.constant)) := by
  have pure_loop : cs.mapM (fun c => (pure (.constant c) : Except Fault Declaration)) = .ok (cs.map .constant) :=
    List.mapM_pure
  rw [← pure_loop]
  exact declares_mapM cs fun c _ => Declares.cons (k := fun _ => _) (declares_pure _)

/-- The draft of an entity takes its names and renders its content. -/
theorem draft_declares {inputs : List InputType} (known : p.inputTypes e = .ok inputs) :
    Declares e.name (draft p context switches e) (p.declaredNames switches e inputs)
      (content p context switches e) := by
  unfold draft content Projection.declaredNames Projection.ownNames
  refine (declares_lift _).bind fun is his => ?_
  cases known.symm.trans his
  refine (declares_lift _).bind fun enums _ => ?_
  refine (declares_mapM inputs fun i _ => ?_).bind fun inputInterfaces _ => ?_
  · exact ((declares_lift _).bind fun t _ => declares_pure _).cons
  refine (declares_mapM _ fun f _ => ?_).bind fun argumentInterfaces _ => ?_
  · exact (declares_lift _).bind fun t _ => Declares.cons (k := fun _ => _) (declares_pure _)
  refine (declares_lift _).bind fun parent _ => ?_
  refine (declares_mapM _ fun f _ => ?_).bind fun resolvers _ => ?_
  · exact ((declares_lift _).bind fun t _ => declares_pure _).cons
  refine Declares.cons ((declares_lift _).bind fun typeMembers _ => ?_)
  rw [← List.append_nil (List.map Constant.name _)]
  refine (declares_constants _).bind (y := fun ds => .ok _) fun ds hds => ?_
  cases hds
  exact declares_pure _

/-- Without input types the draft has the same fault as the content. -/
theorem draft_eq_error {f : Fault} (h : p.inputTypes e = .error f) (taken : List String) :
    (draft p context switches e).run taken = .error f ∧ content p context switches e = .error f := by
  unfold draft content
  rw [run_bind, h]
  exact ⟨rfl, rfl⟩

/-- The declarations of an entity exist if its names are distinct and its content is rendered. -/
theorem build_eq_ok {built : EntityDeclarations} :
    build p context switches e = .ok built ↔
      (∃ inputs, p.inputTypes e = .ok inputs ∧ (p.declaredNames switches e inputs).Nodup) ∧
        content p context switches e = .ok built := by
  unfold build
  constructor
  · intro h
    obtain ⟨⟨b, taken⟩, hr, hb⟩ := bind_eq_ok.1 h
    cases hb
    cases hi : p.inputTypes e with
    | error f =>
      rw [(draft_eq_error hi []).1] at hr
      cases hr
    | ok inputs =>
      obtain ⟨hf, hc, -⟩ := (draft_declares hi).of_run hr
      exact ⟨⟨inputs, rfl, hf.1⟩, hc⟩
  · rintro ⟨⟨inputs, hi, hn⟩, hc⟩
    rw [(draft_declares hi).run_ok ⟨hn, fun _ _ h => by cases h⟩ hc]
    rfl

/-- Without declarations there is a fault of the content, or a name that repeats. -/
theorem build_eq_error {f : Fault} (h : build p context switches e = .error f) :
    content p context switches e = .error f ∨ ∃ inputs n, p.inputTypes e = .ok inputs ∧
      FirstRepeat [] (p.declaredNames switches e inputs) n ∧ f = .duplicateDeclaration e.name n := by
  unfold build at h
  rcases bind_eq_error.1 h with h | ⟨_, _, h⟩
  · cases hi : p.inputTypes e with
    | error f' =>
      rw [(draft_eq_error hi []).1] at h
      cases h
      exact .inl (draft_eq_error hi []).2
    | ok inputs =>
      rcases (draft_declares hi).fault h with h | ⟨n, hn, rfl⟩
      · exact .inl h
      · exact .inr ⟨inputs, n, rfl, hn, rfl⟩
  · cases h

end EntityDeclarations

/-! ## The parts of a content -/

/-- What the declarations of an entity are assembled from. -/
structure EntityParts (p : Projection) (context : TypeExpr) (e : Entity) where
  inputs : List InputType
  enums : List String
  inputInterfaces : List Interface
  argumentInterfaces : List Interface
  parent : TypeExpr
  resolvers : List TypeAlias
  typeMembers : List (Member TypeExpr)
  inputs_eq : p.inputTypes e = .ok inputs
  enums_eq : p.enums inputs e = .ok enums
  inputInterfaces_eq : inputs.mapM p.inputInterface = .ok inputInterfaces
  argumentInterfaces_eq :
    (e.fields.filter fun f => !f.arguments.isEmpty).mapM p.argumentsInterface = .ok argumentInterfaces
  parent_eq : p.entityType e = .ok parent
  resolvers_eq : e.fields.mapM (p.resolverAlias ⟨parent, context⟩ e) = .ok resolvers
  typeMembers_eq : p.typeMembers context e = .ok typeMembers

namespace EntityParts

variable {p : Projection} {context : TypeExpr} {e : Entity}

/-- The aggregate interface of an entity. -/
def aggregate (x : EntityParts p context e) : Interface :=
  ⟨aggregateName e.name, none, fieldMembers e ++ x.typeMembers⟩

/-- The declarations made of parts. -/
def assemble (x : EntityParts p context e) (switches : Switches) : EntityDeclarations where
  declarations := x.inputInterfaces.map .interface ++ x.argumentInterfaces.map .interface ++ x.resolvers.map .alias ++
    [.interface x.aggregate] ++ (p.entityDefaults? switches e).toList.map .constant
  hasTypeOf := match e with
    | .object _ => !x.typeMembers.isEmpty
    | _ => false
  enums := x.enums

/-- The declarations have the declared names, in their order. -/
theorem names_assemble (x : EntityParts p context e) (switches : Switches) :
    (x.assemble switches).declarations.map Declaration.name = p.declaredNames switches e x.inputs := by
  have inputs : x.inputInterfaces.map Interface.name = x.inputs.map InputType.name :=
    map_eq_of_mapM x.inputInterfaces_eq fun i d h => by
      obtain ⟨ms, -, h⟩ := bind_eq_ok.1 h
      cases h
      rfl
  have arguments : x.argumentInterfaces.map Interface.name =
      (e.fields.filter fun f => !f.arguments.isEmpty).map Field.argumentsName :=
    map_eq_of_mapM x.argumentInterfaces_eq fun f d h => by
      obtain ⟨ms, -, h⟩ := bind_eq_ok.1 h
      cases h
      rfl
  have resolvers : x.resolvers.map TypeAlias.name = e.fields.map Field.resolverName :=
    map_eq_of_mapM x.resolvers_eq fun f r h => by
      obtain ⟨t, -, h⟩ := bind_eq_ok.1 h
      cases h
      rfl
  unfold Projection.declaredNames Projection.ownNames
  rw [← inputs, ← arguments, ← resolvers]
  simp [assemble, Declaration.name, aggregate, Function.comp_def]

end EntityParts

theorem EntityDeclarations.content_eq_ok {p : Projection} {context : TypeExpr} {switches : Switches} {e : Entity}
    {built : EntityDeclarations} (h : content p context switches e = .ok built) :
    ∃ x : EntityParts p context e, built = x.assemble switches := by
  unfold content at h
  simp only [mapM_map] at h
  obtain ⟨inputs, inputs_eq, h⟩ := bind_eq_ok.1 h
  obtain ⟨enums, enums_eq, h⟩ := bind_eq_ok.1 h
  obtain ⟨_, hd, h⟩ := bind_eq_ok.1 h
  obtain ⟨inputInterfaces, inputInterfaces_eq, hd⟩ := bind_eq_ok.1 hd
  cases hd
  obtain ⟨_, hd, h⟩ := bind_eq_ok.1 h
  obtain ⟨argumentInterfaces, argumentInterfaces_eq, hd⟩ := bind_eq_ok.1 hd
  cases hd
  obtain ⟨parent, parent_eq, h⟩ := bind_eq_ok.1 h
  obtain ⟨_, hd, h⟩ := bind_eq_ok.1 h
  obtain ⟨resolvers, resolvers_eq, hd⟩ := bind_eq_ok.1 hd
  cases hd
  obtain ⟨typeMembers, typeMembers_eq, h⟩ := bind_eq_ok.1 h
  cases h
  exact ⟨⟨inputs, enums, inputInterfaces, argumentInterfaces, parent, resolvers, typeMembers, inputs_eq, enums_eq,
    inputInterfaces_eq, argumentInterfaces_eq, parent_eq, resolvers_eq, typeMembers_eq⟩, by cases e <;> rfl⟩

/-- Parts make up a content under any switches. -/
theorem EntityParts.content_eq {p : Projection} {context : TypeExpr} {e : Entity} (x : EntityParts p context e)
    (switches : Switches) : EntityDeclarations.content p context switches e = .ok (x.assemble switches) := by
  unfold EntityDeclarations.content
  simp only [mapM_map]
  simp only [x.inputs_eq, x.enums_eq, x.inputInterfaces_eq, x.argumentInterfaces_eq, x.parent_eq, x.resolvers_eq,
    x.typeMembers_eq, ok_bind, pure_eq_ok]
  cases e <;> rfl

end SchemaTypings

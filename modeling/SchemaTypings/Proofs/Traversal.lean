import Mathlib.Logic.Relation
import Mathlib.Order.WellFounded
import SchemaTypings.Proofs.Lookups

/-!
# Input types in depth-first order

The input types that an object or interface refers to are found by a loop over a stack of arguments. Input types may
refer to themselves and to each other, so that the stack can grow for as long as there are input types that have not
been met.

- `Round inputs w w'`: one round of the loop. No sequence of rounds goes on forever (`wellFounded_round`), and none can
  end anywhere but at what `reachableFrom` comes to (`settles`);
- `DepthFirst s owner fields`: the loop comes to the names that a depth-first traversal by recursion meets, in the same
  order, or fails at the first of them that is not one of an input type;
- `depthFirst`: this holds of all objects and interfaces in schemas with distinct names.
-/

namespace SchemaTypings

open Relation

/-! ## Rounds of the loop -/

/-- Where a loop stands: the names that it has met, and the arguments on its stack. The last one is on top. -/
structure Walk where
  met : List String
  stack : List Argument

variable {inputs : OrderedMap String InputType} {w w' : Walk}

/-- A round takes an argument from the stack. If that leads to an input type for the first time, the fields of the input
type are put on the stack, with the first of them on top. -/
inductive Round (inputs : OrderedMap String InputType) : Walk → Walk → Prop
  | pass {met : List String} {a : Argument} {stack : List Argument} :
      a.type.category ≠ .input ∨ a.type.name ∈ met → Round inputs ⟨met, stack ++ [a]⟩ ⟨met, stack⟩
  | enter {met : List String} {a : Argument} {stack : List Argument} {i : InputType} :
      ¬(a.type.category ≠ .input ∨ a.type.name ∈ met) → inputs.get? a.type.name = some i →
      Round inputs ⟨met, stack ++ [a]⟩ ⟨met ++ [a.type.name], stack ++ i.fields.reverse⟩

/-- A loop is over when its stack is empty, or when an argument on top refers to an input type that does not exist. -/
inductive Over (inputs : OrderedMap String InputType) : Walk → Except Fault (List String) → Prop
  | done {met : List String} : Over inputs ⟨met, []⟩ (.ok met)
  | stuck {met : List String} {a : Argument} {stack : List Argument} :
      ¬(a.type.category ≠ .input ∨ a.type.name ∈ met) → inputs.get? a.type.name = none →
      Over inputs ⟨met, stack ++ [a]⟩ (.error (.unknownType a.type.name))

/-- What the loop comes to from where it stands. -/
def Walk.result (inputs : OrderedMap String InputType) (w : Walk) : Except Fault (List String) :=
  reachableFrom inputs w.met w.stack.reverse

/-- A round meets an input type, or leaves the stack shorter. -/
theorem Round.measure_lt (h : Round inputs w w') : Prod.Lex (· < ·) (· < ·)
    ((unmet inputs w'.met).length, w'.stack.length) ((unmet inputs w.met).length, w.stack.length) := by
  cases h with
  | pass _ => exact Prod.Lex.right _ (by simp)
  | enter new known => exact Prod.Lex.left _ _ (length_unmet_lt known fun old => new (.inr old))

theorem wellFounded_round (inputs : OrderedMap String InputType) : WellFounded fun w' w => Round inputs w w' :=
  Subrelation.wf Round.measure_lt (InvImage.wf (fun w : Walk => ((unmet inputs w.met).length, w.stack.length))
    (WellFounded.prod_lex Nat.lt_wfRel.wf Nat.lt_wfRel.wf))

theorem result_snoc (met : List String) (stack : List Argument) (a : Argument) :
    (Walk.mk met (stack ++ [a])).result inputs = reachableFrom inputs met (a :: stack.reverse) := by
  rw [Walk.result, List.reverse_append, List.reverse_singleton, List.singleton_append]

/-- A round is a step of the walk. -/
theorem Round.result_eq (h : Round inputs w w') : w'.result inputs = w.result inputs := by
  cases h with
  | pass skip => rw [result_snoc, reachableFrom_skip skip, Walk.result]
  | enter new known =>
    rw [result_snoc, reachableFrom_enter new known, Walk.result, List.reverse_append, List.reverse_reverse]

theorem result_eq_of_rounds (h : ReflTransGen (Round inputs) w w') : w'.result inputs = w.result inputs := by
  induction h with
  | refl => rfl
  | tail _ round ih => rw [round.result_eq, ih]

/-- A loop that is not over goes on. -/
theorem round_or_over (inputs : OrderedMap String InputType) (w : Walk) :
    (∃ w', Round inputs w w') ∨ Over inputs w (w.result inputs) := by
  obtain ⟨met, stack⟩ := w
  rcases List.eq_nil_or_concat' stack with rfl | ⟨stack, a, rfl⟩
  · rw [Walk.result, List.reverse_nil, reachableFrom_nil]
    exact .inr .done
  · by_cases skip : a.type.category ≠ .input ∨ a.type.name ∈ met
    · exact .inl ⟨_, .pass skip⟩
    · cases known : inputs.get? a.type.name with
      | some i => exact .inl ⟨_, .enter skip known⟩
      | none =>
        rw [result_snoc, reachableFrom_unknown skip known]
        exact .inr (.stuck skip known)

/-- Rounds from some state can only end with the given result. -/
def Settles (inputs : OrderedMap String InputType) (w : Walk) (result : Except Fault (List String)) : Prop :=
  ∀ w', ReflTransGen (Round inputs) w w' → (∃ w'', Round inputs w' w'') ∨ Over inputs w' result

theorem settles (inputs : OrderedMap String InputType) (w : Walk) : Settles inputs w (w.result inputs) := by
  intro w' rounds
  rw [← result_eq_of_rounds rounds]
  exact round_or_over inputs w'

/-! ## One argument at a time -/

/-- Each argument has a loop of its own, which starts with the names that those before it have met. -/
theorem reachableFrom_eq_foldlM : ∀ (as : List Argument) (met : List String),
    reachableFrom inputs met as = as.foldlM (fun met a => reachableFrom inputs met [a]) met
  | [], met => reachableFrom_nil
  | a :: as, met => by
    rw [List.foldlM_cons, ← List.singleton_append, reachableFrom_append]
    congr 1
    funext ns
    exact reachableFrom_eq_foldlM as ns

theorem foldlM_flatMap {α β γ : Type} (f : γ → β → Except Fault γ) (g : α → List β) : ∀ (xs : List α) (c : γ),
    (xs.flatMap g).foldlM f c = xs.foldlM (fun c x => (g x).foldlM f c) c
  | [], _ => rfl
  | x :: xs, c => by
    rw [List.flatMap_cons, List.foldlM_append, List.foldlM_cons]
    congr 1
    funext c
    exact foldlM_flatMap f g xs c

theorem reachableInputs_eq_foldlM (inputs : OrderedMap String InputType) (fields : List Field) :
    reachableInputs inputs fields =
      fields.foldlM (fun met f => f.arguments.foldlM (fun met a => reachableFrom inputs met [a]) met) [] := by
  rw [reachableInputs, reachableFrom_eq_foldlM, foldlM_flatMap]

/-! ## The input types of an object or interface -/

namespace Schema

variable {s : Schema} {n : String}

theorem get?_inputTable_eq_none : s.inputTable.get? n = none ↔ n ∉ s.inputs.map InputType.name := by
  rw [get?_inputTable, input?, lastOf_eq_none]
  simp

theorem get?_inputTable_isNone : (s.inputTable.get? n).isNone = decide (n ∉ s.inputs.map InputType.name) := by
  rw [Bool.eq_iff_iff, Option.isNone_iff_eq_none, get?_inputTable_eq_none, decide_eq_true_iff]

theorem exists_get?_inputTable : (∃ i, s.inputTable.get? n = some i) ↔ n ∈ s.inputs.map InputType.name := by
  rw [← Option.ne_none_iff_exists', ne_eq, get?_inputTable_eq_none, not_not]

/-- The names that the arguments of fields lead to, in the order in which a depth-first traversal meets them. -/
def firstUses (s : Schema) (fields : List Field) : List String :=
  preorder s.inputTable (fields.flatMap Field.arguments)

theorem mem_firstUses {fields : List Field} :
    n ∈ s.firstUses fields ↔ Reaches s.input? (fields.flatMap Field.arguments) n := by
  rw [← get?_inputTable]
  exact mem_preorder_iff

end Schema

/-- The input types of an object or interface are found in depth-first order. The rounds of the loop come to an end, and
there to the result of the walk; each argument starts with a stack of its own. The walk succeeds with the names of the
traversal, which are those that the arguments reach, each once. It fails if one of them names no input type, and then
with the first such name in the order of the traversal. The tables list what the walk succeeds with. -/
structure DepthFirst (s : Schema) (owner : String) (fields : List Field) : Prop where
  terminates : WellFounded fun w' w => Round s.inputTable w w'
  settles : ∀ w : Walk, Settles s.inputTable w (reachableFrom s.inputTable w.met w.stack.reverse)
  argumentwise : reachableInputs s.inputTable fields =
    fields.foldlM (fun met f => f.arguments.foldlM (fun met a => reachableFrom s.inputTable met [a]) met) []
  once : (s.firstUses fields).Nodup
  reached : ∀ n, n ∈ s.firstUses fields ↔ Reaches s.input? (fields.flatMap Field.arguments) n
  succeeds : ∀ ns, reachableInputs s.inputTable fields = .ok ns ↔ ns = s.firstUses fields ∧
    ∀ n, Reaches s.input? (fields.flatMap Field.arguments) n → n ∈ s.inputs.map InputType.name
  fails : ∀ f, reachableInputs s.inputTable fields = .error f ↔
    ∃ n, (s.firstUses fields).find? (· ∉ s.inputs.map InputType.name) = some n ∧ f = .unknownType n
  unknown : (∃ f, reachableInputs s.inputTable fields = .error f) ↔
    ∃ n, Reaches s.input? (fields.flatMap Field.arguments) n ∧ n ∉ s.inputs.map InputType.name
  listed : ∀ a, Associations.build s = .ok a →
    reachableInputs s.inputTable fields = .ok (s.firstUses fields) ∧ a.inputsOf owner = .ok (s.firstUses fields)

section Owner

variable {s : Schema} {owner : String} {fields : List Field}

theorem reachableInputs_eq_ok {ns : List String} : reachableInputs s.inputTable fields = .ok ns ↔
    ns = s.firstUses fields ∧
      ∀ n, Reaches s.input? (fields.flatMap Field.arguments) n → n ∈ s.inputs.map InputType.name := by
  rw [reachableInputs, reachableFrom_eq_ok]
  simp only [Schema.exists_get?_inputTable, ← Schema.mem_firstUses, Schema.firstUses]

theorem reachableInputs_eq_error {f : Fault} : reachableInputs s.inputTable fields = .error f ↔
    ∃ n, (s.firstUses fields).find? (· ∉ s.inputs.map InputType.name) = some n ∧ f = .unknownType n := by
  rw [reachableInputs, reachableFrom_eq_error]
  simp only [unknown?, Schema.get?_inputTable_isNone, Schema.firstUses]

theorem reachableInputs_fails_iff : (∃ f, reachableInputs s.inputTable fields = .error f) ↔
    ∃ n, Reaches s.input? (fields.flatMap Field.arguments) n ∧ n ∉ s.inputs.map InputType.name := by
  simp only [reachableInputs_eq_error, ← Schema.mem_firstUses]
  constructor
  · rintro ⟨f, n, first, rfl⟩
    exact ⟨n, List.mem_of_find?_eq_some first, by simpa using List.find?_some first⟩
  · rintro ⟨n, hn, unknown⟩
    cases first : (s.firstUses fields).find? (· ∉ s.inputs.map InputType.name) with
    | some m => exact ⟨_, m, rfl, rfl⟩
    | none => exact absurd (List.find?_eq_none.1 first n hn) (by simpa using unknown)

/-- The tables of a schema list the input types that the loop finds. -/
theorem Tables.inputsOf_eq {a : Associations} (t : Tables s a) (distinct : (s.definitions.map Definition.name).Nodup)
    (h : (owner, fields) ∈ s.fieldOwners) : ∃ ns, a.inputsOf owner = .ok ns ∧
      reachableInputs s.inputTable fields = .ok ns := by
  obtain ⟨ns, listed, walk⟩ := t.inputsByOwner.get? (Schema.nodup_fieldOwners distinct) h
  refine ⟨ns, find_eq_ok.2 listed, reachableFrom_mono (fun n i found => ?_) walk⟩
  rwa [get?_inputTable, ← t.inputTypes]

/-- In a schema with distinct names, the input types of every object and interface are found in depth-first order. -/
theorem depthFirst (distinct : (s.definitions.map Definition.name).Nodup) (h : (owner, fields) ∈ s.fieldOwners) :
    DepthFirst s owner fields where
  terminates := wellFounded_round _
  settles := settles _
  argumentwise := reachableInputs_eq_foldlM _ _
  once := nodup_preorder
  reached _ := Schema.mem_firstUses
  succeeds _ := reachableInputs_eq_ok
  fails _ := reachableInputs_eq_error
  unknown := reachableInputs_fails_iff
  listed a ha := by
    obtain ⟨ns, listed, walk⟩ := (tables_of_build ha).inputsOf_eq distinct h
    have order : ns = s.firstUses fields := (reachableInputs_eq_ok.1 walk).1
    rw [← order]
    exact ⟨walk, listed⟩

end Owner

/-- Input types that lead back to each other and to themselves. -/
def filters : List Definition := [
  .input ⟨"AuthorFilter", [⟨"latest", .named "Page" .input⟩, ⟨"not", .named "AuthorFilter" .input⟩]⟩,
  .input ⟨"Page", [⟨"first", .named "Int" .scalar⟩, ⟨"after", .named "PostFilter" .input⟩]⟩,
  .input ⟨"PostFilter", [⟨"author", .named "AuthorFilter" .input⟩, ⟨"tags", .named "TagFilter" .input⟩]⟩,
  .input ⟨"TagFilter", []⟩]

/-- Fields whose arguments lead to input types in another order than that of their definitions. -/
def filteredFields : List Field := [
  ⟨"posts", .named "String" .scalar, [⟨"filter", .named "PostFilter" .input⟩]⟩,
  ⟨"authors", .named "String" .scalar, [⟨"page", .named "Page" .input⟩, ⟨"filter", .named "AuthorFilter" .input⟩]⟩]

/-- A query with filters. -/
def filteredSchema : Schema := ⟨.object ⟨"Query", filteredFields, []⟩ :: filters, .standard⟩

theorem depthFirst_filters : DepthFirst filteredSchema "Query" filteredFields := depthFirst (by decide) (by decide)

example : filteredSchema.firstUses filteredFields = ["PostFilter", "AuthorFilter", "Page", "TagFilter"] := by
  cbv

end SchemaTypings

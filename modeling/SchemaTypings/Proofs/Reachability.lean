import Mathlib.Data.List.Infix
import Mathlib.Data.List.Nodup
import SchemaTypings.Associations
import SchemaTypings.Proofs.Computation

/-!
# Reachable input types

The walk `reachableFrom` over input types, compared with a traversal by recursion and with the relation that both
compute.

- `Reaches input? as n`: the arguments lead to the input type of the name, at once or through the fields of input types;
- `preorder inputs as`: the names that the arguments lead to, as a depth-first traversal by recursion meets them. It
  meets exactly the names that the arguments reach, each once (`mem_preorder_iff`, `nodup_preorder`);
- `reachableFrom_eq`: the walk has a stack in place of the recursion, and comes to the same names in the same order. It
  fails at the first of them that has no input type (`reachableFrom_eq_ok`, `reachableFrom_eq_error`).
-/

namespace SchemaTypings

/-- Arguments lead to a name: it is that of an input type among their own types, or among the types of the fields of an
input type that they lead to. -/
inductive Reaches (input? : String → Option InputType) (as : List Argument) : String → Prop
  | argument {a} : a ∈ as → a.type.category = .input → Reaches input? as a.type.name
  | field {n i b} : Reaches input? as n → input? n = some i → b ∈ i.fields → b.type.category = .input →
      Reaches input? as b.type.name

namespace Reaches

variable {input? : String → Option InputType} {as bs : List Argument} {n : String}

theorem not_nil : ¬Reaches input? [] n := by
  intro h
  induction h with
  | argument ha => cases ha
  | field _ _ _ _ ih => exact ih

theorem mono (h : Reaches input? as n) (sub : as ⊆ bs) : Reaches input? bs n := by
  induction h with
  | argument ha hc => exact .argument (sub ha) hc
  | field _ hi hb hc ih => exact .field ih hi hb hc

/-- What the fields of an input type lead to is also reached by an argument of that type. -/
theorem of_fields {a : Argument} {i : InputType} (hc : a.type.category = .input) (hi : input? a.type.name = some i)
    (h : Reaches input? (i.fields ++ as) n) : Reaches input? (a :: as) n := by
  induction h with
  | @argument b hb hcb =>
    rcases List.mem_append.1 hb with hb | hb
    · exact .field (.argument List.mem_cons_self hc) hi hb hcb
    · exact .argument (List.mem_cons_of_mem _ hb) hcb
  | field _ hi hb hcb ih => exact .field ih hi hb hcb

end Reaches

/-! ## The traversal by recursion -/

variable {inputs : OrderedMap String InputType} {met : List String} {a : Argument} {as pending : List Argument}

/-- The fields of the input type of a name. A name without an input type has none. -/
def inputFields (inputs : OrderedMap String InputType) (name : String) : List Argument :=
  match inputs.get? name with
  | some input => input.fields
  | none => []

/-- Where more has been met there is not more left. -/
theorem length_unmet_le {met met' : List String} (sub : met ⊆ met') :
    (unmet inputs met').length ≤ (unmet inputs met).length := by
  refine (List.monotone_filter_right _ fun n hn => ?_).length_le
  simp only [decide_eq_true_eq] at hn ⊢
  exact fun h => hn (sub h)

/-- The traversal goes on with fewer arguments, and with as many input types left at most. -/
theorem measure_lt {met met' : List String} {as bs : List Argument} (sub : met ⊆ met')
    (shorter : bs.length < as.length) :
    Prod.Lex (· < ·) (· < ·) ((unmet inputs met').length, bs.length) ((unmet inputs met).length, as.length) := by
  have fewer : (unmet inputs met').length ≤ (unmet inputs met).length := length_unmet_le sub
  rcases Nat.lt_or_eq_of_le fewer with less | same
  · exact Prod.Lex.left _ _ less
  · rw [same]
    exact Prod.Lex.right _ shorter

/-- Entering a name leaves fewer input types, or has no fields to go on with. -/
theorem measure_enter (new : a.type.name ∉ met) : Prod.Lex (· < ·) (· < ·)
    ((unmet inputs (met ++ [a.type.name])).length, (inputFields inputs a.type.name).length)
    ((unmet inputs met).length, (a :: as).length) := by
  unfold inputFields
  cases known : inputs.get? a.type.name with
  | some input => exact Prod.Lex.left _ _ (length_unmet_lt known new)
  | none => exact measure_lt (List.subset_append_left _ _) (by simp)

/-- Extends the names met so far by those that arguments lead to, depth first. The names that an argument leads to
through its fields come before those of the arguments after it. -/
def preorderFrom (inputs : OrderedMap String InputType) (met : List String) :
    List Argument → { ns : List String // met <+: ns }
  | [] => ⟨met, List.prefix_rfl⟩
  | a :: as =>
    if a.type.category ≠ .input ∨ a.type.name ∈ met then preorderFrom inputs met as
    else
      let inner := preorderFrom inputs (met ++ [a.type.name]) (inputFields inputs a.type.name)
      let outer := preorderFrom inputs inner.1 as
      ⟨outer.1, ((List.prefix_append _ _).trans inner.2).trans outer.2⟩
termination_by as => ((unmet inputs met).length, as.length)
decreasing_by
  · exact measure_lt (List.Subset.refl _) (by simp)
  · rename_i new
    exact measure_enter fun old => new (.inr old)
  · exact measure_lt ((List.prefix_append _ _).trans inner.2).subset (by simp)

/-- The names that arguments lead to, in the order in which a depth-first traversal meets them. -/
def preorder (inputs : OrderedMap String InputType) (as : List Argument) : List String := (preorderFrom inputs [] as).1

theorem preorderFrom_nil : (preorderFrom inputs met []).1 = met := by
  unfold preorderFrom
  rfl

theorem preorderFrom_skip (h : a.type.category ≠ .input ∨ a.type.name ∈ met) :
    preorderFrom inputs met (a :: as) = preorderFrom inputs met as := by
  rw [preorderFrom, if_pos h]

theorem preorderFrom_enter (h : ¬(a.type.category ≠ .input ∨ a.type.name ∈ met)) :
    (preorderFrom inputs met (a :: as)).1 = (preorderFrom inputs
      (preorderFrom inputs (met ++ [a.type.name]) (inputFields inputs a.type.name)).1 as).1 := by
  rw [preorderFrom, if_neg h]

/-! ## What the traversal meets -/

/-- A set of names contains the input types of the given arguments. -/
def Holds (ns : List String) (as : List Argument) : Prop :=
  ∀ a ∈ as, a.type.category = .input → a.type.name ∈ ns

theorem Holds.mono {ns ms : List String} (h : Holds ns as) (sub : ns ⊆ ms) : Holds ms as :=
  fun b hb hc => sub (h b hb hc)

/-- An argument is entered only at an input type. -/
theorem category_of_new (h : ¬(a.type.category ≠ .input ∨ a.type.name ∈ met)) : a.type.category = .input := by
  by_contra hc
  exact h (.inl hc)

/-- What a traversal that had met some names has met after some arguments. What it adds is closed under the fields of
input types. -/
structure Explored (inputs : OrderedMap String InputType) (met : List String) (as : List Argument)
    (ns : List String) : Prop where
  kept : met ⊆ ns
  nodup : met.Nodup → ns.Nodup
  reached : ∀ n ∈ ns, n ∈ met ∨ Reaches inputs.get? as n
  holds : Holds ns as
  closed : ∀ n ∈ ns, n ∉ met → Holds ns (inputFields inputs n)

theorem explored_nil : Explored inputs met [] met where
  kept := List.Subset.refl _
  nodup := id
  reached _ h := .inl h
  holds _ h := by cases h
  closed _ h new := absurd h new

theorem Explored.skip {ns : List String} (h : a.type.category ≠ .input ∨ a.type.name ∈ met)
    (e : Explored inputs met as ns) : Explored inputs met (a :: as) ns where
  kept := e.kept
  nodup := e.nodup
  reached n hn := (e.reached n hn).imp_right fun hr => hr.mono (List.subset_cons_self _ _)
  holds := by
    intro b hb hc
    rcases List.mem_cons.1 hb with rfl | hb
    · exact e.kept (h.resolve_left fun hne => hne hc)
    · exact e.holds b hb hc
  closed := e.closed

/-- What the fields of a name lead to is also reached by an argument of that type. -/
theorem Reaches.of_inputFields {n : String} (hc : a.type.category = .input)
    (h : Reaches inputs.get? (inputFields inputs a.type.name) n) : Reaches inputs.get? (a :: as) n := by
  unfold inputFields at h
  cases known : inputs.get? a.type.name with
  | none =>
    rw [known] at h
    exact absurd h Reaches.not_nil
  | some input =>
    rw [known] at h
    exact (h.mono (List.subset_append_left _ _)).of_fields hc known

theorem Explored.enter {inner outer : List String} (h : ¬(a.type.category ≠ .input ∨ a.type.name ∈ met))
    (e : Explored inputs (met ++ [a.type.name]) (inputFields inputs a.type.name) inner)
    (e' : Explored inputs inner as outer) : Explored inputs met (a :: as) outer := by
  have hc : a.type.category = .input := category_of_new h
  have new : a.type.name ∉ met := fun hm => h (.inr hm)
  have first : a.type.name ∈ outer := e'.kept (e.kept (by simp))
  refine ⟨fun n hn => e'.kept (e.kept (List.mem_append_left _ hn)), fun hm => e'.nodup (e.nodup ?_), fun n hn => ?_, ?_,
    fun n hn hnew => ?_⟩
  · rw [List.nodup_append]
    refine ⟨hm, List.nodup_singleton _, fun x hx y hy same => ?_⟩
    rw [List.mem_singleton.1 hy] at same
    exact new (same ▸ hx)
  · -- a name is met among the arguments after this one, or below this one, or is its own
    rcases e'.reached n hn with hn | later
    · rcases e.reached n hn with hn | below
      · rcases List.mem_append.1 hn with old | here
        · exact .inl old
        · rw [List.mem_singleton.1 here]
          exact .inr (.argument List.mem_cons_self hc)
      · exact .inr (below.of_inputFields hc)
    · exact .inr (later.mono (List.subset_cons_self _ _))
  · intro b hb hcb
    rcases List.mem_cons.1 hb with rfl | hb
    · exact first
    · exact e'.holds b hb hcb
  · by_cases inside : n ∈ inner
    · by_cases here : n = a.type.name
      · rw [here]
        exact e.holds.mono e'.kept
      · exact (e.closed n inside (by simp [hnew, here])).mono e'.kept
    · exact e'.closed n hn inside

/-- A traversal has the properties of a traversal. -/
theorem explored : Explored inputs met as (preorderFrom inputs met as).1 := by
  induction met, as using preorderFrom.induct inputs with
  | case1 met =>
    rw [preorderFrom_nil]
    exact explored_nil
  | case2 met a as skip ih =>
    rw [preorderFrom_skip skip]
    exact ih.skip skip
  | case3 met a as new inner below _ later =>
    rw [preorderFrom_enter new]
    exact below.enter new later

/-- The traversal meets exactly what its arguments reach. -/
theorem mem_preorder_iff {n : String} : n ∈ preorder inputs as ↔ Reaches inputs.get? as n := by
  have e : Explored inputs [] as (preorder inputs as) := explored
  constructor
  · intro hn
    exact (e.reached n hn).resolve_left (by simp)
  · intro hr
    induction hr with
    | argument ha hc => exact e.holds _ ha hc
    | @field n i b _ hi hb hc ih =>
      refine e.closed _ ih (by simp) b ?_ hc
      unfold inputFields
      rwa [hi]

theorem nodup_preorder : (preorder inputs as).Nodup := explored.nodup List.nodup_nil

/-! ## One step of the walk -/

theorem reachableFrom_nil : reachableFrom inputs met [] = .ok met := by
  unfold reachableFrom
  rfl

theorem reachableFrom_skip (h : a.type.category ≠ .input ∨ a.type.name ∈ met) :
    reachableFrom inputs met (a :: pending) = reachableFrom inputs met pending := by
  rw [reachableFrom, if_pos h]

theorem reachableFrom_enter (h : ¬(a.type.category ≠ .input ∨ a.type.name ∈ met)) {input : InputType}
    (known : inputs.get? a.type.name = some input) :
    reachableFrom inputs met (a :: pending) =
      reachableFrom inputs (met ++ [a.type.name]) (input.fields ++ pending) := by
  rw [reachableFrom, if_neg h]
  split
  · simp_all
  · simp_all

theorem reachableFrom_unknown (h : ¬(a.type.category ≠ .input ∨ a.type.name ∈ met))
    (unknown : inputs.get? a.type.name = none) :
    reachableFrom inputs met (a :: pending) = .error (.unknownType a.type.name) := by
  rw [reachableFrom, if_neg h]
  split
  · rfl
  · simp_all

/-- A walk comes to the same end wherever the input types that it looks up are known, in tables of any order and with
any other entries. -/
theorem reachableFrom_mono {inputs' : OrderedMap String InputType}
    (known : ∀ n i, inputs.get? n = some i → inputs'.get? n = some i) {ns : List String} :
    reachableFrom inputs met pending = .ok ns → reachableFrom inputs' met pending = .ok ns := by
  induction met, pending using reachableFrom.induct inputs with
  | case1 met => rw [reachableFrom_nil, reachableFrom_nil]; exact id
  | case2 met a pending skip ih => rwa [reachableFrom_skip skip, reachableFrom_skip skip]
  | case3 met a pending new unknown =>
    rw [reachableFrom_unknown new unknown]
    exact nofun
  | case4 met a pending new input found ih =>
    rwa [reachableFrom_enter new found, reachableFrom_enter new (known _ _ found)]

/-! ## The walk is the traversal -/

/-- The arguments below the top of the stack wait until the walk is through with those above them. -/
theorem reachableFrom_append : reachableFrom inputs met (as ++ pending) =
    reachableFrom inputs met as >>= fun ns => reachableFrom inputs ns pending := by
  -- an induction on `as` would not do, since entering an input type makes it longer
  induction met, as using reachableFrom.induct inputs with
  | case1 met => rw [reachableFrom_nil, List.nil_append, ok_bind]
  | case2 met a as skip ih => rw [List.cons_append, reachableFrom_skip skip, reachableFrom_skip skip, ih]
  | case3 met a as new unknown =>
    rw [List.cons_append, reachableFrom_unknown new unknown, reachableFrom_unknown new unknown]
    rfl
  | case4 met a as new input known ih =>
    rw [List.cons_append, reachableFrom_enter new known, reachableFrom_enter new known, ← List.append_assoc, ih]

/-- The first name that has no input type. -/
def unknown? (inputs : OrderedMap String InputType) (ns : List String) : Option String :=
  ns.find? fun n => (inputs.get? n).isNone

theorem unknown?_eq_none {ns : List String} : unknown? inputs ns = none ↔ ∀ n ∈ ns, ∃ i, inputs.get? n = some i := by
  simp [unknown?, Option.ne_none_iff_exists']

/-- The first unknown name stays the first one when more names follow. -/
theorem unknown?_of_prefix {ns ms : List String} (h : ns <+: ms) {n : String} (first : unknown? inputs ns = some n) :
    unknown? inputs ms = some n := by
  obtain ⟨more, rfl⟩ := h
  unfold unknown? at first ⊢
  rw [List.find?_append, first, Option.some_or]

/-- Names that have been met, if all of them have input types. -/
def ifKnown (inputs : OrderedMap String InputType) (ns : List String) : Except Fault (List String) :=
  match unknown? inputs ns with
  | none => .ok ns
  | some n => .error (.unknownType n)

/-- The walk comes to the names that the traversal meets, or fails at the first of them that has no input type. -/
theorem reachableFrom_eq (known : unknown? inputs met = none) :
    reachableFrom inputs met as = ifKnown inputs (preorderFrom inputs met as).1 := by
  induction met, as using preorderFrom.induct inputs with
  | case1 met =>
    rw [reachableFrom_nil, preorderFrom_nil, ifKnown, known]
  | case2 met a as skip ih =>
    rw [reachableFrom_skip skip, preorderFrom_skip skip, ih known]
  | case3 met a as new inner below _ later =>
    rw [preorderFrom_enter new]
    have met_first : unknown? inputs (met ++ [a.type.name]) = unknown? inputs [a.type.name] := by
      unfold unknown? at known ⊢
      rw [List.find?_append, known, Option.none_or]
    cases found : inputs.get? a.type.name with
    | none =>
      -- the walk fails here, and the traversal goes on without meeting an unknown name before this one
      have first : unknown? inputs (met ++ [a.type.name]) = some a.type.name := by
        rw [met_first]
        simp [unknown?, found]
      rw [reachableFrom_unknown new found, ifKnown,
        unknown?_of_prefix (inner.2.trans (preorderFrom inputs inner.1 as).2) first]
    | some input =>
      have first : unknown? inputs (met ++ [a.type.name]) = none := by
        rw [met_first]
        simp [unknown?, found]
      have fields : inputFields inputs a.type.name = input.fields := by
        unfold inputFields
        rw [found]
      rw [reachableFrom_enter new found, reachableFrom_append, ← fields, below first]
      -- what is below the argument decides, unless all of it is known
      cases unknown : unknown? inputs inner.1 with
      | none =>
        rw [ifKnown, unknown, ok_bind]
        exact later unknown
      | some n =>
        rw [ifKnown, unknown, ifKnown, unknown?_of_prefix (preorderFrom inputs inner.1 as).2 unknown]
        rfl

/-! ## The walk from the beginning -/

variable {ns : List String}

/-- The walk from nothing succeeds if everything that it meets has an input type. -/
theorem reachableFrom_eq_ok : reachableFrom inputs [] as = .ok ns ↔
    ns = preorder inputs as ∧ ∀ n ∈ preorder inputs as, ∃ i, inputs.get? n = some i := by
  rw [reachableFrom_eq rfl, ← unknown?_eq_none, ifKnown]
  unfold preorder
  split <;> rename_i unknown <;> simp [unknown, eq_comm]

/-- It fails at the first name that it meets and that has none. -/
theorem reachableFrom_eq_error {f : Fault} : reachableFrom inputs [] as = .error f ↔
    ∃ n, unknown? inputs (preorder inputs as) = some n ∧ f = .unknownType n := by
  rw [reachableFrom_eq rfl, ifKnown]
  unfold preorder
  split <;> rename_i unknown <;> simp [unknown, eq_comm]

/-- The walk from nothing meets exactly what its arguments reach. -/
theorem mem_reachableFrom_iff (h : reachableFrom inputs [] as = .ok ns) {n : String} :
    n ∈ ns ↔ Reaches inputs.get? as n := by
  rw [(reachableFrom_eq_ok.1 h).1]
  exact mem_preorder_iff

theorem nodup_reachableFrom (h : reachableFrom inputs [] as = .ok ns) : ns.Nodup := by
  rw [(reachableFrom_eq_ok.1 h).1]
  exact nodup_preorder

/-- Whatever the walk meets has an input type. -/
theorem exists_input_of_mem (h : reachableFrom inputs [] as = .ok ns) {n : String} (hn : n ∈ ns) :
    ∃ input, inputs.get? n = some input := by
  obtain ⟨rfl, known⟩ := reachableFrom_eq_ok.1 h
  exact known n hn

end SchemaTypings

import SchemaTypings.Proofs.Computation
import SchemaTypings.Resolvers
import SchemaTypings.TypeScript.Declaration

/-!
# Identifiers in type position

Which names the types of a declaration refer to.

- `TypeExpr.identifiers`: the identifiers in a type, where string literals are none;
- `Uses t P`: a type refers to the names with the property `P` and to no others. Each way to build a type from smaller
  ones has its rule (`Uses.union`, `Uses.function` and so on);
- `Annotation`: the type of the parameter of an arrow function. The text of the function determines it
  (`annotation_unique`);
- `Declaration.Refers`: the identifiers in type position of a declaration. In a constant these are the types of the
  parameters of its entries.
-/

namespace SchemaTypings.TypeScript

/-! ## Identifiers of types -/

/-- The identifiers in the head of a type. -/
def TypeName.identifiers : TypeName → List String
  | .ident n => [n]
  | .literal _ => []

namespace TypeExpr

mutual

/-- The identifiers in a type. -/
def identifiers : TypeExpr → List String
  | .named n ps => n.identifiers ++ allIdentifiers ps
  | .object ms => memberIdentifiers ms
  | .function ps r => memberIdentifiers ps ++ identifiers r
  | .oneOf ts => allIdentifiers ts

/-- The identifiers in types. -/
def allIdentifiers : List TypeExpr → List String
  | [] => []
  | t :: ts => identifiers t ++ allIdentifiers ts

/-- The identifiers in the type of a member. -/
def valueIdentifiers : Member TypeExpr → List String
  | ⟨_, value, _⟩ => identifiers value

/-- The identifiers in the types of members. -/
def memberIdentifiers : List (Member TypeExpr) → List String
  | [] => []
  | m :: ms => valueIdentifiers m ++ memberIdentifiers ms

end

@[simp] theorem mem_allIdentifiers {n : String} : ∀ {ts : List TypeExpr},
    n ∈ allIdentifiers ts ↔ ∃ t ∈ ts, n ∈ t.identifiers
  | [] => by simp [allIdentifiers]
  | t :: ts => by simp [allIdentifiers, mem_allIdentifiers]

@[simp] theorem valueIdentifiers_eq : ∀ m : Member TypeExpr, valueIdentifiers m = m.value.identifiers
  | ⟨_, _, _⟩ => rfl

@[simp] theorem mem_memberIdentifiers {n : String} : ∀ {ms : List (Member TypeExpr)},
    n ∈ memberIdentifiers ms ↔ ∃ m ∈ ms, n ∈ m.value.identifiers
  | [] => by simp [memberIdentifiers]
  | m :: ms => by simp [memberIdentifiers, mem_memberIdentifiers]

@[simp] theorem mem_identifiers_named {n : String} {head : TypeName} {ps : List TypeExpr} :
    n ∈ (TypeExpr.named head ps).identifiers ↔ n ∈ head.identifiers ∨ ∃ t ∈ ps, n ∈ t.identifiers := by
  simp [identifiers]

@[simp] theorem mem_identifiers_object {n : String} {ms : List (Member TypeExpr)} :
    n ∈ (TypeExpr.object ms).identifiers ↔ ∃ m ∈ ms, n ∈ m.value.identifiers := by
  simp [identifiers]

@[simp] theorem mem_identifiers_function {n : String} {ps : List (Member TypeExpr)} {r : TypeExpr} :
    n ∈ (TypeExpr.function ps r).identifiers ↔ (∃ m ∈ ps, n ∈ m.value.identifiers) ∨ n ∈ r.identifiers := by
  simp [identifiers]

@[simp] theorem mem_identifiers_oneOf {n : String} {ts : List TypeExpr} :
    n ∈ (TypeExpr.oneOf ts).identifiers ↔ ∃ t ∈ ts, n ∈ t.identifiers := by
  simp [identifiers]

theorem mem_identifiers_alternatives {n : String} (t : TypeExpr) :
    n ∈ t.identifiers ↔ ∃ t' ∈ t.alternatives, n ∈ t'.identifiers := by
  cases t <;> simp [alternatives]

/-- A union has the identifiers of its members. Without members it is the type `never`. -/
theorem mem_identifiers_union {n : String} {ts : List TypeExpr} : n ∈ (union ts).identifiers ↔
    (∃ t ∈ ts, n ∈ t.identifiers) ∨ (ts.flatMap alternatives = [] ∧ n = "never") := by
  have members : (∃ t ∈ ts, n ∈ t.identifiers) ↔ ∃ t ∈ (ts.flatMap alternatives).eraseDups, n ∈ t.identifiers := by
    simp only [List.mem_eraseDups, List.mem_flatMap]
    constructor
    · rintro ⟨t, ht, hn⟩
      obtain ⟨t', ht', hn⟩ := (mem_identifiers_alternatives t).1 hn
      exact ⟨t', ⟨t, ht, ht'⟩, hn⟩
    · rintro ⟨t', ⟨t, ht, ht'⟩, hn⟩
      exact ⟨t, ht, (mem_identifiers_alternatives t).2 ⟨t', ht', hn⟩⟩
  have empty : ts.flatMap alternatives = [] ↔ (ts.flatMap alternatives).eraseDups = [] := by
    cases ts.flatMap alternatives with
    | nil => simp
    | cons t ts => simp [List.eraseDups_cons]
  rw [members, empty]
  unfold union
  cases h : (ts.flatMap alternatives).eraseDups with
  | nil => simp [never, ident, TypeName.identifiers]
  | cons t ts =>
    cases ts with
    | nil => simp
    | cons t' ts => simp

end TypeExpr

/-! ## Use of names by types -/

/-- The names of TypeScript itself that generated types refer to. -/
def globals : List String :=
  ["string", "number", "boolean", "any", "null", "undefined", "never", "Array", "Promise", "AsyncIterator"]

/-- A type refers to the names with a property and to no others. -/
def Uses (t : TypeExpr) (P : String → Prop) : Prop := ∀ n, n ∈ t.identifiers ↔ P n

namespace Uses

variable {s t : TypeExpr} {P Q : String → Prop}

theorem congr (h : Uses t P) (iff : ∀ n, P n ↔ Q n) : Uses t Q := fun n => (h n).trans (iff n)

theorem ident (name : String) : Uses (.ident name) (· = name) := fun n => by
  simp [TypeExpr.ident, TypeName.identifiers]

theorem literal (text : String) : Uses (.literal text) (fun _ => False) := fun n => by
  simp [TypeExpr.literal, TypeName.identifiers]

theorem generic (name : String) (ht : Uses t P) : Uses (.generic name t) (fun n => n = name ∨ P n) := fun n => by
  simp [TypeExpr.generic, TypeName.identifiers, ht n]

theorem applied (name : String) (hs : Uses s P) (ht : Uses t Q) :
    Uses (.named (.ident name) [s, t]) (fun n => n = name ∨ P n ∨ Q n) := fun n => by
  simp [TypeName.identifiers, hs n, ht n]

/-- Types that use names side by side with values use what belongs to one of the values. -/
theorem exists_iff {α : Type} {P : α → String → Prop} {xs : List α} {ts : List TypeExpr}
    (h : List.Forall₂ (fun x t => Uses t (P x)) xs ts) (n : String) :
    (∃ t ∈ ts, n ∈ t.identifiers) ↔ ∃ x ∈ xs, P x n := by
  induction h with
  | nil => simp
  | cons used _ ih => simp [used n, ih]

/-- A union uses what its members use, and `never` if it has none. -/
theorem union {α : Type} {P : α → String → Prop} {xs : List α} {ts : List TypeExpr}
    (h : List.Forall₂ (fun x t => Uses t (P x) ∧ t.alternatives ≠ []) xs ts) :
    Uses (.union ts) (fun n => (∃ x ∈ xs, P x n) ∨ (xs = [] ∧ n = "never")) := fun n => by
  have empty : ts.flatMap TypeExpr.alternatives = [] ↔ xs = [] := by
    cases h with
    | nil => simp
    | cons first _ => simp [first.2]
  rw [TypeExpr.mem_identifiers_union, exists_iff (h.imp fun _ _ used => used.1) n, empty]

/-- A choice between two types uses what either of them uses. -/
theorem or (hs : Uses s P) (ht : Uses t Q) (some : t.alternatives ≠ []) : Uses (s.or t) (fun n => P n ∨ Q n) :=
  fun n => by
    have present : ¬[s, t].flatMap TypeExpr.alternatives = [] := by simp [some]
    rw [TypeExpr.or, TypeExpr.mem_identifiers_union, or_iff_left fun h => present h.1]
    simp [hs n, ht n]

/-- An object type uses what the types of its members use. -/
theorem object {α : Type} {P : α → String → Prop} {xs : List α} {ms : List (Member TypeExpr)}
    (h : List.Forall₂ (fun x m => Uses m.value (P x)) xs ms) : Uses (.object ms) (fun n => ∃ x ∈ xs, P x n) :=
  fun n => by
    have values : List.Forall₂ (fun x t => Uses t (P x)) xs (ms.map Member.value) := List.forall₂_map_right_iff.2 h
    simpa using exists_iff values n

theorem nil : Uses (.object []) (fun _ => False) := fun n => by simp

theorem cons {m : Member TypeExpr} {ms : List (Member TypeExpr)} (hm : Uses m.value P) (hs : Uses (.object ms) Q) :
    Uses (.object (m :: ms)) (fun n => P n ∨ Q n) := fun n => by
  have others := hs n
  rw [TypeExpr.mem_identifiers_object] at others ⊢
  rw [List.exists_mem_cons_iff, hm n, others]

/-- A function uses what its parameters and its result use. -/
theorem function {ps : List (Member TypeExpr)} (hp : Uses (.object ps) P) (hr : Uses t Q) :
    Uses (.function ps t) (fun n => P n ∨ Q n) := fun n => by
  rw [TypeExpr.mem_identifiers_function, ← TypeExpr.mem_identifiers_object, hp n, hr n]

end Uses

/-! ## Arrow functions -/

/-- An arrow function of one parameter with its type. -/
structure Arrow where
  parameter : String
  annotation : String
  body : String

/-- The text of an arrow function. -/
def Arrow.text (a : Arrow) : String := "(" ++ a.parameter ++ ": " ++ a.annotation ++ ") => " ++ a.body

/-- An arrow function reads a property of its parameter, as it is or with `null` in place of an absent one. -/
def Arrow.Reads (a : Arrow) (key : String) : Prop :=
  a.body = a.parameter ++ "." ++ key ∨
    a.body = "(" ++ (a.parameter ++ "." ++ key) ++ " === undefined ? null : " ++ (a.parameter ++ "." ++ key) ++ ")"

/-- All parentheses of a text come in pairs, together with so many that are open in front of it. -/
def paired : Nat → List Char → Bool
  | depth, [] => depth == 0
  | depth, c :: cs =>
    if c = '(' then paired (depth + 1) cs
    else if c = ')' then depth != 0 && paired (depth - 1) cs
    else paired depth cs

/-- The text of an entry is an arrow function whose parameter has the type. A function that reads the property of its
key shows in this where the type ends, whatever names are in it. The type of any other function ends at the parenthesis
that closes the parameter list. -/
def Annotation (key text type : String) : Prop :=
  ∃ a : Arrow, a.text = text ∧ a.annotation = type ∧ ':' ∉ a.parameter.toList ∧
    (a.Reads key ∨ (paired 0 type.toList = true ∧ ∀ b : Arrow, b.text = text → ':' ∉ b.parameter.toList → ¬b.Reads key))

section Arrows

variable {a b : Arrow} {key text : String}

/-- The parameter of an arrow function stands in front of the first colon. -/
theorem Arrow.parameter_eq (ha : ':' ∉ a.parameter.toList) (hb : ':' ∉ b.parameter.toList) (same : a.text = b.text) :
    a.parameter = b.parameter := by
  have first : ∀ {u r : List Char}, ':' ∉ u → (u ++ (": ".toList ++ r)).takeWhile (· != ':') = u := fun {u r} hu => by
    rw [List.takeWhile_append_of_pos fun c hc => by simpa using ne_of_mem_of_not_mem hc hu]
    simp
  have chars := congrArg String.toList same
  simp only [Arrow.text, String.toList_append, List.append_assoc, List.append_cancel_left_eq] at chars
  rw [← String.toList_inj, ← first ha, chars, first hb]

/-- A text cannot be continued by a point on one side and begin with a parenthesis on the other. -/
theorem append_point_ne {cs ds : List Char} : ∀ key : List Char, key ++ '.' :: cs ≠ ')' :: (key ++ '.' :: ds)
  | [], h => by simp at h
  | c :: key, h => by
    simp only [List.cons_append, List.cons.injEq] at h
    obtain ⟨rfl, h⟩ := h
    exact append_point_ne key h

/-- The end of the text of a function tells in which of the two ways it reads the property of a key. -/
theorem Arrow.body_eq (ha : a.Reads key) (hb : b.Reads key) (parameter : a.parameter = b.parameter)
    (same : a.text = b.text) : a.body = b.body := by
  have plain_ne : ∀ {s t : String}, s ++ (b.parameter ++ "." ++ key) ≠ t ++
      ("(" ++ (b.parameter ++ "." ++ key) ++ " === undefined ? null : " ++ (b.parameter ++ "." ++ key) ++ ")") := by
    intro s t h
    have chars := congrArg (List.reverse ∘ String.toList) h
    simp only [Function.comp_apply, String.toList_append, List.reverse_append, List.append_assoc] at chars
    exact append_point_ne key.toList.reverse (by simpa using chars)
  unfold Arrow.Reads at ha hb
  rw [parameter] at ha
  rcases ha with ha | ha <;> rcases hb with hb | hb <;> rw [ha, hb]
  · rw [Arrow.text, Arrow.text, ha, hb] at same
    exact absurd same plain_ne
  · rw [Arrow.text, Arrow.text, ha, hb] at same
    exact absurd same.symm plain_ne

/-- The parameter and the body of an arrow function leave the annotation between them. -/
theorem Arrow.annotation_eq (parameter : a.parameter = b.parameter) (body : a.body = b.body) (same : a.text = b.text) :
    a.annotation = b.annotation := by
  have chars := congrArg String.toList same
  simpa [Arrow.text, parameter, body, String.toList_inj] using chars

/-- A text in which parentheses come in pairs ends at the first one that has no counterpart. -/
theorem paired_inj : ∀ {d : Nat} {u v r s : List Char}, paired d u = true → paired d v = true →
    u ++ ')' :: r = v ++ ')' :: s → u = v
  | _, [], [], _, _, _, _, _ => rfl
  | d, [], c :: v, r, s, hu, hv, h => by
    obtain ⟨rfl, -⟩ := List.cons.inj h
    simp_all [paired]
  | d, c :: u, [], r, s, hu, hv, h => by
    obtain ⟨rfl, -⟩ := List.cons.inj h
    simp_all [paired]
  | d, c :: u, c' :: v, r, s, hu, hv, h => by
    obtain ⟨rfl, rest⟩ := List.cons.inj h
    rw [paired] at hu hv
    by_cases opens : c = '('
    · rw [if_pos opens] at hu hv
      rw [paired_inj hu hv rest]
    · by_cases closes : c = ')'
      · rw [if_neg opens, if_pos closes, Bool.and_eq_true] at hu hv
        rw [paired_inj hu.2 hv.2 rest]
      · rw [if_neg opens, if_neg closes] at hu hv
        rw [paired_inj hu hv rest]

/-- The text of an entry determines the type of its parameter. -/
theorem annotation_unique {type type' : String} (h : Annotation key text type) (h' : Annotation key text type') :
    type = type' := by
  obtain ⟨a, text_a, rfl, ha, reads | ⟨closed, none⟩⟩ := h <;>
    obtain ⟨b, text_b, rfl, hb, reads' | ⟨closed', none'⟩⟩ := h'
  all_goals
    have same : a.text = b.text := text_a.trans text_b.symm
    have parameter := Arrow.parameter_eq ha hb same
  · exact Arrow.annotation_eq parameter (Arrow.body_eq reads reads' parameter same) same
  · exact absurd reads (none' a text_a ha)
  · exact absurd reads' (none b text_b hb)
  · have chars := congrArg String.toList same
    simp only [Arrow.text, parameter, String.toList_append, List.append_assoc, List.append_cancel_left_eq] at chars
    exact String.toList_inj.1 (paired_inj closed closed' chars)

end Arrows

/-! ## Identifiers of declarations -/

/-- The name of a type alias. -/
def TypeAlias.name (a : TypeAlias) : String :=
  match a.head with
  | .named head _ => head.text
  | head => head.text

/-- The name that a declaration introduces. -/
def Declaration.name : Declaration → String
  | .interface i => i.name
  | .alias a => a.name
  | .constant c => c.name

/-- An entry of a constant is an arrow function whose parameter has the type. -/
def Constant.Annotates (c : Constant) (type : String) : Prop := ∃ entry ∈ c.entries, Annotation entry.1 entry.2 type

/-- An identifier occurs in type position in a declaration. -/
def Declaration.Refers : Declaration → String → Prop
  | .interface i, n => (∃ p, i.parent = some p ∧ n ∈ p.identifiers) ∨ n ∈ (TypeExpr.object i.members).identifiers
  | .alias a, n => n ∈ a.type.identifiers
  | .constant c, n => c.Annotates n

/-- An interface without a parent refers to what its members refer to. -/
theorem refers_interface {i : Interface} (parent : i.parent = none) {n : String} :
    (Declaration.interface i).Refers n ↔ n ∈ (TypeExpr.object i.members).identifiers := by
  simp [Declaration.Refers, parent]

end SchemaTypings.TypeScript

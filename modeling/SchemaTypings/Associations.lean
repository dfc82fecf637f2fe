import SchemaTypings.Fault
import SchemaTypings.OrderedMap
import SchemaTypings.Schema

/-!
# Associations

What is looked up about a schema again and again is computed once: who implements an interface, who belongs to a union,
and which input types and enums a type refers to.

- `Associations.build` makes the tables or reports the first name that does not denote what it should;
- `reachableInputs` follows input types through their fields, depth first, and meets each once;
- the look-ups fail exactly on names that their table does not concern.
-/

namespace SchemaTypings

/-- Tables over the definitions of a schema. -/
structure Associations where
  inputTypes : OrderedMap String InputType
  /-- Input types reachable from the arguments of an object or interface. -/
  inputsByOwner : OrderedMap String (List String)
  implementorsByInterface : OrderedMap String (List ObjectType)
  membersByUnion : OrderedMap String (List ObjectType)
  /-- The unions that an object belongs to. -/
  unionsByMember : OrderedMap String (List String)
  /-- Enums that the fields and arguments of an object or interface refer to. -/
  enumsByOwner : OrderedMap String (List String)
  deriving DecidableEq, Repr

/-! ## Reachable input types -/

/-- Input types that have not been met yet. -/
def unmet (inputs : OrderedMap String InputType) (met : List String) : List String :=
  inputs.keys.filter (· ∉ met)

/-- Meeting a known input type for the first time leaves fewer of them unmet. -/
theorem length_unmet_lt {inputs : OrderedMap String InputType} {met : List String} {name : String} {input : InputType}
    (known : inputs.get? name = some input) (new : name ∉ met) :
    (unmet inputs (met ++ [name])).length < (unmet inputs met).length := by
  have hk : name ∈ inputs.keys := OrderedMap.mem_keys_of_get? known
  have hs : unmet inputs (met ++ [name]) = (unmet inputs met).filter (· ≠ name) := by
    simp only [unmet, List.filter_filter]
    apply List.filter_congr
    intro x _
    by_cases hx : x = name <;> simp [hx]
  rw [hs]
  refine List.length_filter_lt_length_iff_exists.2 ⟨name, ?_, by simp⟩
  simp [unmet, hk, new]

/-- Extends the input types met so far by those that pending arguments lead to. The fields of an input type come before
the arguments that follow it. -/
def reachableFrom (inputs : OrderedMap String InputType) (met : List String) :
    List Argument → Except Fault (List String)
  | [] => .ok met
  | a :: pending =>
    if a.type.category ≠ .input ∨ a.type.name ∈ met then reachableFrom inputs met pending
    else
      match _ : inputs.get? a.type.name with
      | none => .error (.unknownType a.type.name)
      | some input => reachableFrom inputs (met ++ [a.type.name]) (input.fields ++ pending)
termination_by pending => ((unmet inputs met).length, pending.length)
decreasing_by
  · exact Prod.Lex.right _ (by simp)
  · rename_i hc known
    exact Prod.Lex.left _ _ (length_unmet_lt known (fun hm => hc (.inr hm)))

/-- The input types that the arguments of fields lead to, in the order in which they are first met. -/
def reachableInputs (inputs : OrderedMap String InputType) (fields : List Field) : Except Fault (List String) :=
  reachableFrom inputs [] (fields.flatMap Field.arguments)

/-- The enums that fields and their arguments refer to, each once. -/
def referencedEnums (fields : List Field) : List String :=
  (((fields.flatMap fun f => f.type :: f.arguments.map Argument.type).filter fun t => t.category == .enum).map
    TypeRef.name).eraseDups

/-! ## Building the tables -/

namespace Schema

/-- The object type of a name. Of several with the name the last counts. -/
def object (s : Schema) (name : String) : Except Fault ObjectType :=
  match s.objects.reverse.find? (·.name == name) with
  | some o => .ok o
  | none => .error (if s.definitions.any (·.name == name) then .notAnObject name else .unknownType name)

/-- The implementors that interfaces list themselves. -/
def listedImplementors (s : Schema) : Except Fault (OrderedMap String (List ObjectType)) := do
  return .ofLast (← s.interfaces.mapM fun i => return (i.name, ← i.implementors.mapM s.object))

/-- Adds an object to the implementors of an interface unless one of its name is there. -/
def addImplementor (o : ObjectType) (table : OrderedMap String (List ObjectType)) (interface : String) :
    Except Fault (OrderedMap String (List ObjectType)) :=
  match table.get? interface with
  | none => .error (.notAnInterface interface)
  | some os => .ok (if os.any (·.name == o.name) then table else table.insert interface (os ++ [o]))

/-- Implementors of interfaces: those that an interface lists, then those that declare conformance on their own. -/
def implementorTable (s : Schema) : Except Fault (OrderedMap String (List ObjectType)) := do
  s.objects.foldlM (fun table o => o.implements.foldlM (addImplementor o) table) (← s.listedImplementors)

/-- Members of unions. -/
def memberTable (s : Schema) : Except Fault (List (String × List ObjectType)) :=
  s.unions.mapM fun u => return (u.name, ← u.members.mapM s.object)

/-- Unions by member: every object has an entry, and a union counts as often as it lists the object. -/
def unionTable (s : Schema) (members : List (String × List ObjectType)) : OrderedMap String (List String) :=
  .ofLast (s.objects.map fun o =>
    (o.name, members.flatMap fun (union, os) => (os.filter (·.name == o.name)).map fun _ => union))

/-- Objects and then interfaces, by name, with their fields. -/
def fieldOwners (s : Schema) : List (String × List Field) :=
  s.objects.map (fun o => (o.name, o.fields)) ++ s.interfaces.map (fun i => (i.name, i.fields))

end Schema

namespace Associations

/-- The tables of a schema. -/
def build (s : Schema) : Except Fault Associations := do
  let inputTypes := OrderedMap.ofLast (s.inputs.map fun i => (i.name, i))
  let implementors ← s.implementorTable
  let members ← s.memberTable
  let inputsByOwner ← s.fieldOwners.mapM fun (owner, fields) => return (owner, ← reachableInputs inputTypes fields)
  return {
    inputTypes
    inputsByOwner := .ofLast inputsByOwner
    implementorsByInterface := implementors
    membersByUnion := .ofLast members
    unionsByMember := s.unionTable members
    enumsByOwner := .ofLast (s.fieldOwners.map fun (owner, fields) => (owner, referencedEnums fields)) }

/-! ## Look-ups -/

/-- The entry of a table at a name, which the schema must define. -/
def find (table : OrderedMap String α) (name : String) : Except Fault α :=
  match table.get? name with
  | some a => .ok a
  | none => .error (.unknownType name)

variable (a : Associations)

/-- The input type of a name. -/
def inputType (name : String) : Except Fault InputType := find a.inputTypes name

/-- The input types reachable from the arguments of an object or interface. -/
def inputsOf (owner : String) : Except Fault (List String) := find a.inputsByOwner owner

/-- The objects that implement an interface. -/
def implementors (interface : String) : Except Fault (List ObjectType) := find a.implementorsByInterface interface

/-- The objects that belong to a union. -/
def members (union : String) : Except Fault (List ObjectType) := find a.membersByUnion union

/-- The unions that an object belongs to. -/
def unionsContaining (object : String) : Except Fault (List String) := find a.unionsByMember object

/-- The enums that an object or interface refers to. -/
def enumsOf (owner : String) : Except Fault (List String) := find a.enumsByOwner owner

end Associations

end SchemaTypings

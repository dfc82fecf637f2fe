import SchemaTypings.Associations
import SchemaTypings.Model

/-!
# Imports of a unit

A unit imports the models that its declarations refer to. `neededModels` collects the schema names behind them,
`groupByModule` turns the names into models and groups those by the module that exports them.

- Interfaces and unions stand for the objects that implement them or belong to them.
- The first category found for a name counts.
- In `ImportGroups` every module and every name within a module occurs once, in the order of first mention.
-/

namespace SchemaTypings

/-! ## Import groups -/

/-- Names to import, by module. -/
structure ImportGroups where
  groups : OrderedMap String (List String)
  deriving DecidableEq, Repr

namespace ImportGroups

/-- Nothing to import. -/
def empty : ImportGroups := ⟨OrderedMap.empty⟩

/-- Whether there is nothing to import. -/
def isEmpty (g : ImportGroups) : Bool := g.groups.entries.isEmpty

/-- The names imported from a module. -/
def namesOf (g : ImportGroups) (module : String) : List String := (g.groups.get? module).getD []

/-- Imports a name from a module, unless that is done already. -/
def push (g : ImportGroups) (module name : String) : ImportGroups :=
  if name ∈ g.namesOf module then g else ⟨g.groups.insert module (g.namesOf module ++ [name])⟩

/-- Imports a model. -/
def pushModel (g : ImportGroups) (m : Model) : ImportGroups := g.push m.module m.typeName

end ImportGroups

/-! ## Needed models -/

/-- The objects that a value of an object's type-of check may belong to: all implementors of the interfaces that it
implements and all members of its unions. An object without interfaces has no such check, and the list is empty. -/
def possibleTypes (a : Associations) (object : String) (implements : List String) : Except Fault (List String) :=
  if implements.isEmpty then return []
  else do
    let implementors ← implements.mapM a.implementors
    let members ← (← a.unionsContaining object).mapM a.members
    return ((implementors ++ members).flatten.map ObjectType.name).eraseDups

/-- Objects as needed names. -/
def asNeeded (os : List ObjectType) : List (String × Category) := os.map fun o => (o.name, .object)

/-- What a field's own type needs. -/
def neededByType (a : Associations) (t : TypeRef) : Except Fault (List (String × Category)) :=
  match t.category with
  | .interface => return asNeeded (← a.implementors t.name)
  | .union => return asNeeded (← a.members t.name)
  | category => return [(t.name, category)]

/-- What arguments or input fields need: just the names of their types. -/
def neededByArguments (as : List Argument) : List (String × Category) :=
  as.map fun a => (a.type.name, a.type.category)

/-- What a field needs. -/
def neededByField (a : Associations) (f : Field) : Except Fault (List (String × Category)) :=
  return (← neededByType a f.type) ++ neededByArguments f.arguments

/-- What an entity needs to name its own values. -/
def neededByParent (a : Associations) : Entity → Except Fault (List (String × Category))
  | .object o => return [(o.name, .object)]
  | .interface i => return asNeeded (← a.implementors i.name)
  | .union u => return asNeeded (← a.members u.name)

/-- What the input types declared in the unit of an entity need. -/
def neededByInputs (a : Associations) : Entity → Except Fault (List (String × Category))
  | .union _ => return []
  | e => do return ((← (← a.inputsOf e.name).mapM a.inputType).map fun i => neededByArguments i.fields).flatten

/-- What the type-of check of an entity needs. -/
def neededByTypeOf (a : Associations) : Entity → Except Fault (List (String × Category))
  | .object o => return (← possibleTypes a o.name o.implements).map (·, .object)
  | _ => return []

/-- The schema names that the declarations of an entity refer to, each with the category under which it is referred to
first. -/
def neededModels (a : Associations) (e : Entity) : Except Fault (OrderedMap String Category) := do
  let parent ← neededByParent a e
  let fields ← e.fields.mapM (neededByField a)
  let inputs ← neededByInputs a e
  let typeOf ← neededByTypeOf a e
  return .ofFirst (parent ++ fields.flatten ++ inputs ++ typeOf)

/-! ## Grouping -/

/-- The model to import for a needed name, if one is to be imported. Enums and input types are declared by the units
themselves. An object needs a model unless it is a root operation type. -/
def modelFor (models : ModelMap) (roots : Roots) (name : String) : Category → Except Fault (Option Model)
  | .enum | .input => return none
  | .object =>
    match models.objectModel? roots name with
    | some m => return some m
    | none => if roots.contains name then return none else throw (.missingModel name)
  | .scalar | .interface | .union =>
    match models.lookup name with
    | .external m => return some m
    | .enumBacked | .unmapped => return none

/-- Groups the models of needed names by module. -/
def groupByModule (models : ModelMap) (roots : Roots) (needed : OrderedMap String Category) :
    Except Fault ImportGroups := do
  let found ← needed.entries.mapM fun (name, category) => modelFor models roots name category
  return (found.filterMap id).foldl ImportGroups.pushModel .empty

end SchemaTypings

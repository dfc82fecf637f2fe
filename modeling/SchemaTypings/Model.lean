import SchemaTypings.OrderedMap
import SchemaTypings.Schema

/-!
# Models

The types that back schema types in the resolvers' own code, as the user declares them.

- `ModelMap.lookup` says what is declared for a name;
- `ModelMap.objectModel?` is the model of an object type, where the default module stands in for a missing declaration.
-/

namespace SchemaTypings

/-- An exported type that backs a schema type. -/
structure Model where
  /-- The name of the exported type. -/
  typeName : String
  /-- The module that exports it. -/
  module : String
  /-- The properties that the model carries, if they are listed. -/
  fields : Option (List String)
  deriving DecidableEq, Repr

/-- What is declared for a schema name. -/
inductive ModelEntry where
  | external (m : Model)
  /-- The name is that of an enum, which is declared in the generated units and never imported. -/
  | enum
  deriving DecidableEq, Repr

/-- The answer to the question how a schema name is mapped. -/
inductive ModelLookup where
  | external (m : Model)
  | enumBacked
  | unmapped
  deriving DecidableEq, Repr

/-- The models of a project. -/
structure ModelMap where
  /-- The module taken to export a model of the same name for every object type without an entry. -/
  defaultModule : Option String
  entries : OrderedMap String ModelEntry
  deriving DecidableEq, Repr

namespace ModelMap

/-- No models. -/
def empty : ModelMap := ⟨none, OrderedMap.empty⟩

/-- Sets the default module. -/
def withDefaultModule (m : ModelMap) (module : String) : ModelMap := { m with defaultModule := some module }

/-- Maps a schema name to a model. -/
def withModel (m : ModelMap) (name : String) (model : Model) : ModelMap :=
  { m with entries := m.entries.insert name (.external model) }

/-- Declares a schema name to be that of an enum. -/
def withEnum (m : ModelMap) (name : String) : ModelMap := { m with entries := m.entries.insert name .enum }

/-- How a schema name is mapped. -/
def lookup (m : ModelMap) (name : String) : ModelLookup :=
  match m.entries.get? name with
  | some (.external model) => .external model
  | some .enum => .enumBacked
  | none => .unmapped

/-- The model of an object type. Without an entry it is taken from the default module, except that root operation types
have only the models that are declared for them. -/
def objectModel? (m : ModelMap) (roots : Roots) (name : String) : Option Model :=
  match m.lookup name with
  | .external model => some model
  | .enumBacked => none
  | .unmapped => if roots.contains name then none else m.defaultModule.map fun module => ⟨name, module, none⟩

end ModelMap

/-- The type of the context that every resolver receives. -/
structure ContextType where
  typeName : String
  module : String
  deriving DecidableEq, Repr

/-- Switches for the optional parts of the typings. -/
structure Switches where
  /-- Emit a constant with trivial resolvers for the fields that the model of an object carries. -/
  defaultResolvers : Bool
  /-- Merge the root map into the resolver map of `graphql-tools`. -/
  resolversAugmentation : Bool
  deriving DecidableEq, Repr

/-- Everything optional is off. -/
def Switches.off : Switches := ⟨false, false⟩

end SchemaTypings

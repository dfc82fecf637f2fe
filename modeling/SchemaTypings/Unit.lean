import SchemaTypings.Resolvers

/-!
# Units

A unit is one generated file. It is kept as data (imports and declarations) and becomes text in the last step.

- `EntityUnit` holds the declarations of one entity; it is a pure projection of the schema and always written anew.
- The enum unit and the root unit may be edited, and are only written where there is none.
- `Source.generate` makes all units of a source in order, and passes each through a formatter.
-/

namespace SchemaTypings

open TypeScript

/-- A generated file. -/
structure OutputUnit where
  /-- The path below the output directory. -/
  path : String
  /-- Whether an existing file at the path is replaced. -/
  forceOverwrite : Bool
  content : String
  deriving DecidableEq, Repr

/-- What typings are generated from. -/
structure Source where
  schema : Schema
  models : ModelMap
  /-- The type of the context; without it each unit declares a permissive one. -/
  context : Option ContextType
  switches : Switches
  deriving DecidableEq, Repr

/-! ## Fixed texts -/

/-- The first line of files that are always written anew. -/
def doNotEdit : String := "// Code generated by typed-resolvers. DO NOT EDIT.\n"

/-- The first lines of files that are only written when they are missing. -/
def editable : String :=
  "// Generated by typed-resolvers. This file is only written when it does not exist yet,\n// edit it freely.\n"

/-- The name of the context type that a unit declares itself. -/
def contextPlaceholder : String := "Context"

/-- The name of the enum unit. -/
def enumsUnit : String := "enums"

/-- The name of the root unit. -/
def rootUnit : String := "index"

/-- The name of the root map. -/
def rootMap : String := "Resolvers"

/-- The file of a unit. -/
def unitPath (name : String) : String := name ++ ".ts"

/-- The module specifier by which units import one another. -/
def unitModule (name : String) : String := "./" ++ name

/-- Texts, each on lines of its own. -/
def lines (texts : List String) : String := String.join (texts.map (· ++ "\n"))

/-- Texts, each on lines of its own after an empty line. -/
def paragraphs (texts : List String) : String := String.join (texts.map ("\n" ++ · ++ "\n"))

/-! ## Entity units -/

/-- The unit of an entity. -/
structure EntityUnit where
  entity : String
  imports : List Import
  /-- Whether the unit declares the context type. -/
  declaresContext : Bool
  declarations : List Declaration
  deriving DecidableEq, Repr

namespace EntityUnit

/-- The import of what every unit needs from the library that runs resolvers. -/
def libraryImport (hasTypeOf : Bool) : Import :=
  ⟨if hasTypeOf then [resolveInfo, isTypeOf] else [resolveInfo], "graphql"⟩

/-- The import of enums, if there are any. -/
def enumsImport (enums : List String) : List Import :=
  if enums.isEmpty then [] else [⟨enums, unitModule enumsUnit⟩]

/-- The text of an entity unit. -/
def text (u : EntityUnit) : String :=
  doNotEdit ++ "\n" ++ lines (u.imports.map Import.text) ++
    (if u.declaresContext then "\ntype " ++ contextPlaceholder ++ " = any\n" else "") ++
    paragraphs (u.declarations.map Declaration.exported)

/-- The file of an entity unit. -/
def output (u : EntityUnit) : OutputUnit := ⟨unitPath u.entity, true, u.text⟩

end EntityUnit

namespace Source

variable (s : Source)

/-- The type of the context in declarations. -/
def contextType : TypeExpr :=
  match s.context with
  | some c => .ident c.typeName
  | none => .ident contextPlaceholder

/-- Names to import for an entity, with that of the context last. -/
def importGroups (a : Associations) (e : Entity) : Except Fault ImportGroups := do
  let groups ← groupByModule s.models s.schema.roots (← neededModels a e)
  return match s.context with
    | some c => groups.push c.module c.typeName
    | none => groups

/-- The projection of types in the units of a source. -/
def projection (a : Associations) : Projection := ⟨a, s.models, s.schema.roots⟩

/-- The unit of an entity. -/
def entityUnit (a : Associations) (e : Entity) : Except Fault EntityUnit := do
  let built ← EntityDeclarations.build (s.projection a) s.contextType s.switches e
  let groups ← s.importGroups a e
  return {
    entity := e.name
    imports := EntityUnit.libraryImport built.hasTypeOf ::
      groups.groups.entries.map (fun (module, ns) => ⟨ns, module⟩) ++ EntityUnit.enumsImport built.enums
    declaresContext := s.context.isNone
    declarations := built.declarations }

end Source

/-! ## The enum unit -/

/-- The declaration of an enum as a union of literals. -/
def EnumType.declaration (e : EnumType) : Declaration :=
  .alias ⟨.ident e.name, .union (e.values.map TypeExpr.literal)⟩

/-- The text of the enum unit. -/
def enumsText (es : List EnumType) : String :=
  editable ++ paragraphs (es.map fun e => e.declaration.exported)

/-- The enum unit, if there are enums. -/
def enumsOutput (es : List EnumType) : List OutputUnit :=
  if es.isEmpty then [] else [⟨unitPath enumsUnit, false, enumsText es⟩]

/-! ## The root unit -/

/-- The unit that maps every entity to its aggregate. -/
structure RootUnit where
  imports : List Import
  map : Interface
  augmentation : Option Augmentation
  deriving DecidableEq, Repr

namespace RootUnit

/-- Makes the root map usable as the resolver map of `graphql-tools`, whose interface it extends. -/
def resolversAugmentation : Augmentation :=
  ⟨"graphql-tools", [⟨"IResolvers", some (.ident rootMap), []⟩]⟩

/-- The import of the aggregate of an entity. -/
def aggregateImport (e : Entity) : Import := ⟨[aggregateName e.name], unitModule e.name⟩

/-- Whether the root map may leave an entity out. Objects must be resolved, abstract types need not be. -/
def isOptional : Entity → Bool
  | .object _ => false
  | _ => true

/-- The member of the root map for an entity. -/
def mapMember (e : Entity) : Member TypeExpr := ⟨e.name, .ident (aggregateName e.name), isOptional e⟩

/-- The root unit of a schema. -/
def build (schema : Schema) (switches : Switches) : RootUnit where
  imports := schema.entities.map aggregateImport
  map := ⟨rootMap, none, schema.entities.map mapMember⟩
  augmentation := if switches.resolversAugmentation then some resolversAugmentation else none

/-- The text of the root unit. -/
def text (u : RootUnit) : String :=
  editable ++ "\n" ++ lines (u.imports.map Import.text) ++
    paragraphs (Declaration.exported (.interface u.map) :: u.augmentation.toList.map Augmentation.text)

/-- The file of the root unit. -/
def output (u : RootUnit) : OutputUnit := ⟨unitPath rootUnit, false, u.text⟩

end RootUnit

/-! ## Generation -/

/-- Lays out the code at a path anew, or gives up. -/
abbrev Formatter := (path code : String) → Option String

/-- Leaves code as it is. -/
def Formatter.passthrough : Formatter := fun _ code => some code

/-- A unit after formatting. Where the formatter gives up, the code stays as it is. -/
def OutputUnit.formatted (format : Formatter) (u : OutputUnit) : OutputUnit :=
  { u with content := (format u.path u.content).getD u.content }

/-- The units of a source, each formatted as soon as it is made: entities in the order of the schema, enums, root. -/
def Source.generate (s : Source) (format : Formatter) : Except Fault (List OutputUnit) := do
  let a ← Associations.build s.schema
  let entities ← s.schema.entities.mapM fun e => do
    return (← s.entityUnit a e).output.formatted format
  let enums := (enumsOutput s.schema.enums).map (OutputUnit.formatted format)
  let root := (RootUnit.build s.schema s.switches).output.formatted format
  return entities ++ enums ++ [root]

end SchemaTypings

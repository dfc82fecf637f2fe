import SchemaTypings.Projection
import SchemaTypings.Text.Uppercase
import SchemaTypings.TypeScript.Declaration

/-!
# Declarations of an entity

The declarations that describe how the fields of an object or interface are resolved, and how the objects behind an
interface or union are told apart.

- Each field gets an interface for its arguments, if it has any, and the type of its resolver.
- The aggregate interface has one member for each field, and one for the check of types where an entity takes part in
  an abstract type.
- A name that is declared twice is a fault. `EntityDeclarations.build` makes the declarations in their order and reports
  the first fault on the way.
-/

namespace SchemaTypings

open TypeScript

/-! ## Names -/

/-- The parameter type that carries the query under execution. -/
def resolveInfo : String := "GraphQLResolveInfo"

/-- The type of a type-of check. -/
def isTypeOf : String := "GraphQLIsTypeOfFn"

/-- The name of the arguments interface of a field. -/
def Field.argumentsName (f : Field) : String := Text.capitalize f.name ++ "Args"

/-- The name of the resolver type of a field. -/
def Field.resolverName (f : Field) : String := Text.capitalize f.name ++ "Resolver"

/-- The name of the aggregate interface of an entity. -/
def aggregateName (entity : String) : String := entity ++ "Resolvers"

/-- The name of the default resolvers of an object. -/
def defaultsName (object : String) : String := object ++ "DefaultResolvers"

/-! ## Input types and arguments -/

namespace Projection

variable (p : Projection)

/-- Members for arguments or input fields. One that admits `null` may be left out. -/
def inputMembers (as : List Argument) : Except Fault (List (Member TypeExpr)) :=
  as.mapM fun a => return ⟨a.name, ← p.project a.type, a.type.isNullable⟩

/-- The interface of an input type. -/
def inputInterface (i : InputType) : Except Fault Interface := return ⟨i.name, none, ← p.inputMembers i.fields⟩

/-- The interface of the arguments of a field. -/
def argumentsInterface (f : Field) : Except Fault Interface :=
  return ⟨f.argumentsName, none, ← p.inputMembers f.arguments⟩

end Projection

/-! ## Resolvers -/

/-- The parameters that all resolvers of an entity share. -/
structure ResolverParams where
  parent : TypeExpr
  context : TypeExpr
  deriving DecidableEq, Repr

namespace ResolverParams

/-- The type of the arguments that the resolver of a field receives. -/
def argumentsType (f : Field) : TypeExpr := if f.arguments.isEmpty then .object [] else .ident f.argumentsName

/-- A function that resolves a field. -/
def function (params : ResolverParams) (f : Field) (result : TypeExpr) : TypeExpr :=
  .function
    [.required "parent" params.parent, .required "args" (argumentsType f), .required "context" params.context,
      .required "info" (.ident resolveInfo)]
    result

/-- The resolver type of a field whose values have the given type: a function, or a record of a function and the query
fragment that it needs. -/
def resolver (params : ResolverParams) (f : Field) (t : TypeExpr) : TypeExpr :=
  let function := params.function f (maybePromise t)
  .union [function, .object [.required "fragment" (.ident "string"), .required "resolve" function]]

/-- The resolver type of a field of the subscription root: a stream of events, and perhaps a function for each event. -/
def subscriptionResolver (params : ResolverParams) (f : Field) (t : TypeExpr) : TypeExpr :=
  .object
    [.required "subscribe" (params.function f (maybePromise (.generic "AsyncIterator" t))),
      ⟨"resolve", params.function f (maybePromise t), true⟩]

end ResolverParams

/-- Whether an entity is the subscription root. -/
def Entity.isSubscription (roots : Roots) : Entity → Bool
  | .object o => o.name == roots.subscription
  | _ => false

/-- The alias for the resolver type of a field of an entity. -/
def Projection.resolverAlias (p : Projection) (params : ResolverParams) (e : Entity) (f : Field) :
    Except Fault TypeAlias := do
  let t ← p.project f.type
  return ⟨.ident f.resolverName,
    if e.isSubscription p.roots then params.subscriptionResolver f t else params.resolver f t⟩

/-! ## Aggregates -/

/-- A function that names the object behind a value of an abstract type. -/
def resolveTypeFunction (context values : TypeExpr) (os : List ObjectType) : TypeExpr :=
  .function [.required "value" values, .required "context" context, .required "info" (.ident resolveInfo)]
    (maybePromise (.union (os.map fun o => .literal o.name)))

/-- The members of an aggregate that tell types apart. -/
def Projection.typeMembers (p : Projection) (context : TypeExpr) :
    Entity → Except Fault (List (Member TypeExpr))
  | .object o => do
    let possible ← possibleTypes p.associations o.name o.implements
    if possible.isEmpty then return []
    else
      let values ← possible.mapM p.objectType
      return [⟨"__isTypeOf", .named (.ident isTypeOf) [.union values, context], true⟩]
  | .interface i => do
    let os ← p.associations.implementors i.name
    return [⟨"__resolveType", resolveTypeFunction context (← p.objectTypes os) os, false⟩]
  | .union u => do
    let os ← p.associations.members u.name
    return [⟨"__resolveType", resolveTypeFunction context (← p.objectTypes os) os, true⟩]

/-- The members of an aggregate for the fields of its entity. -/
def fieldMembers (e : Entity) : List (Member TypeExpr) :=
  e.fields.map fun f => .required f.name (.ident f.resolverName)

/-! ## Default resolvers -/

/-- Whether a model carries a field. Without a list of its own a model is taken to carry scalars and enums. -/
def Model.carries (m : Model) (f : Field) : Bool :=
  match m.fields with
  | some names => names.contains f.name
  | none => f.type.category == .scalar || f.type.category == .enum

/-- A resolver that reads the property of a field, with `null` in place of an absent one where the field admits it. -/
def Model.defaultResolver (m : Model) (f : Field) : String :=
  let property := "parent." ++ f.name
  "(parent: " ++ m.typeName ++ ") => " ++
    if f.type.isNullable then "(" ++ property ++ " === undefined ? null : " ++ property ++ ")" else property

/-- The default resolvers of an object, if its model carries any field. -/
def defaultResolvers? (o : ObjectType) (m : Model) : Option Constant :=
  match o.fields.filter m.carries with
  | [] => none
  | fs => some ⟨defaultsName o.name, fs.map fun f => (f.name, m.defaultResolver f)⟩

/-- The default resolvers of an entity, if they are switched on and there are any. -/
def Projection.entityDefaults? (p : Projection) (switches : Switches) : Entity → Option Constant
  | .object o => do
    let m ← p.models.objectModel? p.roots o.name
    if switches.defaultResolvers then defaultResolvers? o m else none
  | _ => none

/-! ## All declarations of an entity -/

/-- A step of drafting declarations, over the names declared so far. -/
abbrev Draft (α : Type) := StateT (List String) (Except Fault) α

/-- Takes a name for a declaration in the unit of an entity. -/
def declare (entity name : String) : Draft Unit := do
  if name ∈ (← get) then throw (.duplicateDeclaration entity name) else modify (name :: ·)

/-- The declarations of an entity and what its unit must import for them. -/
structure EntityDeclarations where
  declarations : List Declaration
  /-- Whether the aggregate has a type-of check. -/
  hasTypeOf : Bool
  /-- The enums that the declarations refer to. -/
  enums : List String
  deriving DecidableEq, Repr

/-- The input types to declare in the unit of an entity. -/
def Projection.inputTypes (p : Projection) : Entity → Except Fault (List InputType)
  | .union _ => return []
  | e => do (← p.associations.inputsOf e.name).mapM p.associations.inputType

/-- The enums that the declarations of an entity refer to, with those of its input types. -/
def Projection.enums (p : Projection) (inputs : List InputType) : Entity → Except Fault (List String)
  | .union _ => return []
  | e => do
    let ofInputs := inputs.flatMap fun i => (i.fields.filter (·.type.category == .enum)).map (·.type.name)
    return ((← p.associations.enumsOf e.name) ++ ofInputs).eraseDups

namespace EntityDeclarations

/-- Drafts the declarations of an entity. -/
def draft (p : Projection) (context : TypeExpr) (switches : Switches) (e : Entity) : Draft EntityDeclarations := do
  let inputs ← p.inputTypes e
  let enums ← p.enums inputs e
  let inputInterfaces ← inputs.mapM fun i => do
    declare e.name i.name
    return .interface (← p.inputInterface i)
  let argumentInterfaces ← (e.fields.filter fun f => !f.arguments.isEmpty).mapM fun f => do
    let i ← p.argumentsInterface f
    declare e.name f.argumentsName
    return .interface i
  let params : ResolverParams := ⟨← p.entityType e, context⟩
  let resolvers ← e.fields.mapM fun f => do
    declare e.name f.resolverName
    return .alias (← p.resolverAlias params e f)
  declare e.name (aggregateName e.name)
  let typeMembers ← p.typeMembers context e
  let aggregate : Interface := ⟨aggregateName e.name, none, fieldMembers e ++ typeMembers⟩
  let defaults ← (p.entityDefaults? switches e).toList.mapM fun c => do
    declare e.name c.name
    return .constant c
  let hasTypeOf := match e with
    | .object _ => !typeMembers.isEmpty
    | _ => false
  return ⟨inputInterfaces ++ argumentInterfaces ++ resolvers ++ [.interface aggregate] ++ defaults, hasTypeOf, enums⟩

/-- The declarations of an entity, or the first fault on the way to them. -/
def build (p : Projection) (context : TypeExpr) (switches : Switches) (e : Entity) :
    Except Fault EntityDeclarations :=
  return (← (draft p context switches e).run []).1

end EntityDeclarations

end SchemaTypings

import SchemaTypings.Imports
import SchemaTypings.TypeScript.TypeExpr

/-!
# Projection of schema types

The TypeScript type that stands for a schema type. Modifiers are mirrored layer by layer: a nullable layer adds `null`,
a list layer becomes an `Array`.

- Objects stand for their models, interfaces and unions for the union of the models of their objects.
- Enums and input types stand for themselves.
- Scalars stand for a primitive, for their model, or for `any`.
-/

namespace SchemaTypings

open TypeScript

/-- What the projection of a type depends on. -/
structure Projection where
  associations : Associations
  models : ModelMap
  roots : Roots

namespace Projection

variable (p : Projection)

/-- The type of the values of an object. A root operation type without a model has the value `undefined`. -/
def objectType (name : String) : Except Fault TypeExpr :=
  match p.models.objectModel? p.roots name with
  | some m => return .ident m.typeName
  | none => if p.roots.contains name then return .ident "undefined" else throw (.missingModel name)

/-- The type of the values of several objects. -/
def objectTypes (os : List ObjectType) : Except Fault TypeExpr :=
  return .union (← os.mapM fun o => p.objectType o.name)

/-- The type of the values of an interface. -/
def interfaceType (name : String) : Except Fault TypeExpr := do p.objectTypes (← p.associations.implementors name)

/-- The type of the values of a union. -/
def unionType (name : String) : Except Fault TypeExpr := do p.objectTypes (← p.associations.members name)

/-- The type of the values of an entity. -/
def entityType : Entity → Except Fault TypeExpr
  | .object o => p.objectType o.name
  | .interface i => p.interfaceType i.name
  | .union u => p.unionType u.name

/-- The type of the values of a scalar. -/
def scalarType (name : String) : TypeExpr :=
  match name with
  | "ID" | "String" => .ident "string"
  | "Int" | "Float" => .ident "number"
  | "Boolean" => .ident "boolean"
  | _ =>
    match p.models.lookup name with
    | .external m => .ident m.typeName
    | .enumBacked | .unmapped => .ident "any"

/-- The type of the values of a named type. -/
def namedType (name : String) : Category → Except Fault TypeExpr
  | .scalar => return p.scalarType name
  | .object => p.objectType name
  | .interface => p.interfaceType name
  | .union => p.unionType name
  | .enum | .input => return .ident name

/-- A list around a type. -/
def wrap (t : TypeExpr) : ListLayer → TypeExpr
  | .nullable => (TypeExpr.generic "Array" t).or .null
  | .nonNull => .generic "Array" t

/-- A type under the modifiers of a reference. -/
def modified (t : TypeExpr) (r : TypeRef) : TypeExpr := r.layers.foldl wrap (if r.innerNullable then t.or .null else t)

/-- The type of the values of a type reference. -/
def project (r : TypeRef) : Except Fault TypeExpr := return modified (← p.namedType r.name r.category) r

end Projection

/-- A resolver may answer with a value or with the promise of one. -/
def maybePromise (t : TypeExpr) : TypeExpr := t.or (.generic "Promise" t)

end SchemaTypings

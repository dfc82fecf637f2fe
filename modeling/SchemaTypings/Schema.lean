/-!
# Schemas

The type system that typings are generated from: an ordered list of definitions and the names of the three root
operation types.

- `TypeRef`: a named type under list and nullability modifiers, built by `TypeRef.named`, `TypeRef.list` and
  `TypeRef.nonNull`;
- `Definition` and `Schema`: objects, interfaces, unions, enums and input types in declaration order;
- `Entity`: the definitions that get a unit of their own.
-/

namespace SchemaTypings

/-! ## Type references -/

/-- What kind of definition a type reference points at. -/
inductive Category where
  | scalar
  | object
  | interface
  | union
  | enum
  | input
  deriving DecidableEq, Repr

/-- One list modifier: `[…]` admits `null` in place of the list, `[…]!` does not. -/
inductive ListLayer where
  | nullable
  | nonNull
  deriving DecidableEq, Repr

/-- A named type under its modifiers. `[Post!]` has the name `Post`, which is not nullable inside, and one nullable
layer. -/
structure TypeRef where
  name : String
  category : Category
  /-- Whether `null` may stand where a value of the named type is expected. -/
  innerNullable : Bool
  /-- List modifiers from the innermost to the outermost. -/
  layers : List ListLayer
  deriving DecidableEq, Repr

namespace TypeRef

/-- A bare name admits `null`. -/
def named (name : String) (category : Category) : TypeRef := ⟨name, category, true, []⟩

/-- Wraps in a nullable list. -/
def list (r : TypeRef) : TypeRef := { r with layers := r.layers ++ [.nullable] }

/-- Excludes `null` at the outermost level only. -/
def nonNull (r : TypeRef) : TypeRef :=
  match r.layers with
  | [] => { r with innerNullable := false }
  | _ :: _ => { r with layers := r.layers.dropLast ++ [.nonNull] }

/-- Whether the outermost level admits `null`. -/
def isNullable (r : TypeRef) : Bool :=
  match r.layers.getLast? with
  | none => r.innerNullable
  | some layer => layer == .nullable

end TypeRef

/-! ## Definitions -/

/-- An argument of a field; the fields of input types have the same shape. -/
structure Argument where
  name : String
  type : TypeRef
  deriving DecidableEq, Repr

/-- A field of an object or interface. -/
structure Field where
  name : String
  type : TypeRef
  arguments : List Argument
  deriving DecidableEq, Repr

/-- An object type and the names of the interfaces that it declares conformance to. -/
structure ObjectType where
  name : String
  fields : List Field
  implements : List String
  deriving DecidableEq, Repr

/-- An interface and the names of the object types that implement it. -/
structure InterfaceType where
  name : String
  fields : List Field
  implementors : List String
  deriving DecidableEq, Repr

/-- A union and the names of its member object types. -/
structure UnionType where
  name : String
  members : List String
  deriving DecidableEq, Repr

/-- An enum and its values. -/
structure EnumType where
  name : String
  values : List String
  deriving DecidableEq, Repr

/-- An input type. -/
structure InputType where
  name : String
  fields : List Argument
  deriving DecidableEq, Repr

/-- A definition that typings are generated from. -/
inductive Definition where
  | object (o : ObjectType)
  | interface (i : InterfaceType)
  | union (u : UnionType)
  | enum (e : EnumType)
  | input (i : InputType)
  deriving DecidableEq, Repr

/-- The name under which a definition is declared. -/
def Definition.name : Definition → String
  | .object o => o.name
  | .interface i => i.name
  | .union u => u.name
  | .enum e => e.name
  | .input i => i.name

/-- Names of the root operation types. -/
structure Roots where
  query : String
  mutation : String
  subscription : String
  deriving DecidableEq, Repr

namespace Roots

/-- The names in force when a schema does not choose its own. -/
def standard : Roots := ⟨"Query", "Mutation", "Subscription"⟩

/-- Whether a name is that of a root operation type. -/
def contains (r : Roots) (name : String) : Bool :=
  r.query == name || r.mutation == name || r.subscription == name

end Roots

/-- Every definition of a schema in declaration order, with its root operation types. -/
structure Schema where
  definitions : List Definition
  roots : Roots
  deriving DecidableEq, Repr

/-! ## Entities -/

/-- A definition that gets a unit of its own. -/
inductive Entity where
  | object (o : ObjectType)
  | interface (i : InterfaceType)
  | union (u : UnionType)
  deriving DecidableEq, Repr

namespace Entity

/-- The schema name of an entity. -/
def name : Entity → String
  | .object o => o.name
  | .interface i => i.name
  | .union u => u.name

/-- The fields of an entity; a union has none. -/
def fields : Entity → List Field
  | .object o => o.fields
  | .interface i => i.fields
  | .union _ => []

end Entity

/-- The entity that a definition declares, if it declares one. -/
def Definition.entity? : Definition → Option Entity
  | .object o => some (.object o)
  | .interface i => some (.interface i)
  | .union u => some (.union u)
  | .enum _ | .input _ => none

/-- The object type that a definition declares, if it declares one. -/
def Definition.object? : Definition → Option ObjectType
  | .object o => some o
  | _ => none

/-- The interface that a definition declares, if it declares one. -/
def Definition.interface? : Definition → Option InterfaceType
  | .interface i => some i
  | _ => none

/-- The union that a definition declares, if it declares one. -/
def Definition.union? : Definition → Option UnionType
  | .union u => some u
  | _ => none

/-- The enum that a definition declares, if it declares one. -/
def Definition.enum? : Definition → Option EnumType
  | .enum e => some e
  | _ => none

/-- The input type that a definition declares, if it declares one. -/
def Definition.input? : Definition → Option InputType
  | .input i => some i
  | _ => none

namespace Schema

/-- Objects, interfaces and unions in declaration order. -/
def entities (s : Schema) : List Entity := s.definitions.filterMap Definition.entity?

/-- Object types in declaration order. -/
def objects (s : Schema) : List ObjectType := s.definitions.filterMap Definition.object?

/-- Interfaces in declaration order. -/
def interfaces (s : Schema) : List InterfaceType := s.definitions.filterMap Definition.interface?

/-- Unions in declaration order. -/
def unions (s : Schema) : List UnionType := s.definitions.filterMap Definition.union?

/-- Enums in declaration order. -/
def enums (s : Schema) : List EnumType := s.definitions.filterMap Definition.enum?

/-- Input types in declaration order. -/
def inputs (s : Schema) : List InputType := s.definitions.filterMap Definition.input?

end Schema

end SchemaTypings

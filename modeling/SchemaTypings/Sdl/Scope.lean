import SchemaTypings.Fault
import SchemaTypings.Schema
import SchemaTypings.Sdl.Document

/-!
# From documents to schemas

Every name in a document is looked up among its type definitions, wherever they stand, and among the built-in scalars.
`Document.schema` checks the names in the order of the text and keeps the first fault.

- A name has the category of its last definition.
- Names after `implements` must be interfaces, members of unions must be objects.
- Extensions, directive definitions and conformance between interfaces have no effect.
-/

namespace SchemaTypings.Sdl

/-- The category that a definition gives to its name. -/
def TypeDefinition.category : TypeDefinition → Category
  | .scalar _ => .scalar
  | .object .. => .object
  | .interface .. => .interface
  | .union .. => .union
  | .enum .. => .enum
  | .input .. => .input

/-- The scalars that need no definition. -/
def builtinScalars : List String := ["ID", "String", "Int", "Float", "Boolean"]

/-- The categories of names; of several entries for a name the first counts. -/
structure Scope where
  categories : List (String × Category)
  deriving DecidableEq, Repr

namespace Scope

/-- The scope that type definitions make up: later definitions hide earlier ones, and all hide the built-in scalars. -/
def ofTypes (ts : List TypeDefinition) : Scope :=
  ⟨(ts.map fun t => (t.name, t.category)).reverse ++ builtinScalars.map (·, .scalar)⟩

/-- The category of a name, if it has one. -/
def category? (s : Scope) (name : String) : Option Category := s.categories.lookup name

/-- The category of a name that has to have one. -/
def category (s : Scope) (name : String) : Except Fault Category :=
  match s.category? name with
  | some c => .ok c
  | none => .error (.unknownType name)

/-- Demands a category of a name. -/
def require (s : Scope) (expected : Category) (otherwise : String → Fault) (name : String) : Except Fault Unit := do
  if (← s.category name) = expected then return () else throw (otherwise name)

/-- Resolves a written type. -/
def typeRef (s : Scope) : TypeSyntax → Except Fault TypeRef
  | .named n nonNull => do
    let r := TypeRef.named n (← s.category n)
    return if nonNull then r.nonNull else r
  | .list t nonNull => do
    let r := (← s.typeRef t).list
    return if nonNull then r.nonNull else r

/-- Resolves the types of arguments or input fields. -/
def inputs (s : Scope) (is : List InputSyntax) : Except Fault (List Argument) :=
  is.mapM fun i => return ⟨i.name, ← s.typeRef i.type⟩

/-- Resolves the types of fields, each followed by those of its arguments. -/
def fields (s : Scope) (fs : List FieldSyntax) : Except Fault (List Field) :=
  fs.mapM fun f => return ⟨f.name, ← s.typeRef f.type, ← s.inputs f.arguments⟩

/-- Resolves a type definition. A scalar gives none; an interface is left without implementors. -/
def definition (s : Scope) : TypeDefinition → Except Fault (Option Definition)
  | .scalar _ => return none
  | .object n is fs => do
    is.forM (s.require .interface .notAnInterface)
    return some (.object ⟨n, ← s.fields fs, is⟩)
  | .interface n _ fs => return some (.interface ⟨n, ← s.fields fs, []⟩)
  | .union n ms => do
    ms.forM (s.require .object .notAnObject)
    return some (.union ⟨n, ms⟩)
  | .enum n vs => return some (.enum ⟨n, vs⟩)
  | .input n fs => return some (.input ⟨n, ← s.inputs fs⟩)

end Scope

/-- The objects that name an interface after `implements`, in order and as often as they name it. -/
def implementorsOf (ts : List TypeDefinition) (interface : String) : List String :=
  ts.flatMap fun
    | .object n is _ => (is.filter (· == interface)).map fun _ => n
    | _ => []

/-- Gives interfaces their implementors. Of several interfaces with one name the first gets them. -/
def fillImplementors (ts : List TypeDefinition) (seen : List String) : List Definition → List Definition
  | [] => []
  | .interface i :: ds =>
    .interface { i with implementors := if i.name ∈ seen then [] else implementorsOf ts i.name } ::
      fillImplementors ts (i.name :: seen) ds
  | d :: ds => d :: fillImplementors ts seen ds

/-- The root operation types that schema definitions choose, later ones over earlier ones. -/
def rootsOf (os : List Operations) : Roots :=
  os.foldl (fun r o => ⟨o.query.getD r.query, o.mutation.getD r.mutation, o.subscription.getD r.subscription⟩)
    Roots.standard

/-- The schema that a document defines, or its first fault. -/
def Document.schema (d : Document) : Except Fault Schema := do
  let definitions ← d.types.mapM (Scope.ofTypes d.types).definition
  return ⟨fillImplementors d.types [] (definitions.filterMap id), rootsOf d.operations⟩

end SchemaTypings.Sdl

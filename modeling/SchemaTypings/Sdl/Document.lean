/-!
# Documents of the schema language

The tree that a schema text denotes. Descriptions and directives are dropped: they say nothing about types. Names are
not resolved here, so a document may refer to what it does not define.
-/

namespace SchemaTypings.Sdl

/-- A type as it is written: a name or a list, each with or without an exclamation mark. -/
inductive TypeSyntax where
  | named (name : String) (nonNull : Bool)
  | list (item : TypeSyntax) (nonNull : Bool)
  deriving DecidableEq, Repr

namespace TypeSyntax

/-- The name at the centre of a type. -/
def name : TypeSyntax → String
  | .named n _ => n
  | .list t _ => t.name

end TypeSyntax

/-- An argument of a field or directive, or a field of an input type. -/
structure InputSyntax where
  name : String
  type : TypeSyntax
  deriving DecidableEq, Repr

/-- A field of an object or interface. -/
structure FieldSyntax where
  name : String
  type : TypeSyntax
  arguments : List InputSyntax
  deriving DecidableEq, Repr

/-- The definition of a type, also used for what an extension adds. -/
inductive TypeDefinition where
  | scalar (name : String)
  | object (name : String) (implements : List String) (fields : List FieldSyntax)
  | interface (name : String) (implements : List String) (fields : List FieldSyntax)
  | union (name : String) (members : List String)
  | enum (name : String) (values : List String)
  | input (name : String) (fields : List InputSyntax)
  deriving DecidableEq, Repr

/-- The name that a type definition gives. -/
def TypeDefinition.name : TypeDefinition → String
  | .scalar n | .object n _ _ | .interface n _ _ | .union n _ | .enum n _ | .input n _ => n

/-- The names that a schema definition gives to the root operation types. -/
structure Operations where
  query : Option String
  mutation : Option String
  subscription : Option String
  deriving DecidableEq, Repr

/-- No operation named. -/
def Operations.none : Operations := ⟨.none, .none, .none⟩

/-- Names one operation. Unknown operations and second names are refused. -/
def Operations.add? (o : Operations) (operation type : String) : Option Operations :=
  match operation with
  | "query" => if o.query.isNone then some { o with query := some type } else Option.none
  | "mutation" => if o.mutation.isNone then some { o with mutation := some type } else Option.none
  | "subscription" => if o.subscription.isNone then some { o with subscription := some type } else Option.none
  | _ => Option.none

/-- One entry of a document. -/
inductive Statement where
  | operations (o : Operations)
  | definition (t : TypeDefinition)
  | extension (t : TypeDefinition)
  | directive (name : String) (arguments : List InputSyntax)
  deriving DecidableEq, Repr

/-- The type definition of a statement, if it is one. -/
def Statement.definition? : Statement → Option TypeDefinition
  | .definition t => some t
  | _ => none

/-- The operations of a statement, if it names some. -/
def Statement.operations? : Statement → Option Operations
  | .operations o => some o
  | _ => none

/-- A schema document. -/
structure Document where
  statements : List Statement
  deriving DecidableEq, Repr

namespace Document

/-- The type definitions of a document in order. -/
def types (d : Document) : List TypeDefinition := d.statements.filterMap Statement.definition?

/-- The schema definitions of a document in order. -/
def operations (d : Document) : List Operations := d.statements.filterMap Statement.operations?

end Document

end SchemaTypings.Sdl

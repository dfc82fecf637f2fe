/-!
# Faults of a schema

The reasons why no typings can be generated from a schema and a model map, and the one place where they are worded.
-/

namespace SchemaTypings

/-- Why a schema is refused. -/
inductive Fault where
  /-- A name is referred to and nothing defines it. -/
  | unknownType (name : String)
  /-- A name stands where an object type must stand. -/
  | notAnObject (name : String)
  /-- A name stands where an interface must stand. -/
  | notAnInterface (name : String)
  /-- A name stands where a union must stand. -/
  | notAUnion (name : String)
  /-- No model is known for an object type that needs one. -/
  | missingModel (name : String)
  /-- Two declarations of one unit have the same name. -/
  | duplicateDeclaration (entity name : String)
  deriving DecidableEq, Repr

/-- The wording of a fault. -/
def Fault.message : Fault → String
  | .unknownType name => "Type `" ++ name ++ "` is referenced but never defined"
  | .notAnObject name => "`" ++ name ++ "` is not an object type"
  | .notAnInterface name => "`" ++ name ++ "` is not an interface"
  | .notAUnion name => "`" ++ name ++ "` is not a union"
  | .missingModel name => "No model is mapped to the object type `" ++ name ++ "`"
  | .duplicateDeclaration entity name => "`" ++ name ++ "` is declared twice in the unit of `" ++ entity ++ "`"

end SchemaTypings

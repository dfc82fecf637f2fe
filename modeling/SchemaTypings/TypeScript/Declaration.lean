import SchemaTypings.Text.Indentation
import SchemaTypings.TypeScript.TypeExpr

/-!
# TypeScript declarations

Interfaces, type aliases, constants, imports and module augmentations, and their text. Declarations keep their parts as
data up to the last step, so that what a unit declares and mentions can be read off without parsing.
-/

namespace SchemaTypings.TypeScript

/-- An interface, perhaps with a parent. -/
structure Interface where
  name : String
  parent : Option TypeExpr
  members : List (Member TypeExpr)
  deriving DecidableEq, Repr

/-- A name for a type. The name is an expression, because it may carry parameters. -/
structure TypeAlias where
  head : TypeExpr
  type : TypeExpr
  deriving DecidableEq, Repr

/-- A constant object whose entries are expressions given as text. -/
structure Constant where
  name : String
  entries : List (String × String)
  deriving DecidableEq, Repr

/-- Something that a unit declares. -/
inductive Declaration where
  | interface (i : Interface)
  | alias (a : TypeAlias)
  | constant (c : Constant)
  deriving DecidableEq, Repr

/-- An import of names from a module. -/
structure Import where
  names : List String
  module : String
  deriving DecidableEq, Repr

/-- Interfaces to be merged into a module that exists elsewhere. -/
structure Augmentation where
  module : String
  interfaces : List Interface
  deriving DecidableEq, Repr

/-! ## Text -/

/-- Each text on a line of its own, after two spaces and before an ending. -/
def indented (ending : String) (texts : List String) : String :=
  String.join (texts.map fun t => "  " ++ t ++ ending ++ "\n")

/-- The text of an interface: a line for each member. -/
def Interface.text (i : Interface) : String :=
  let parent := match i.parent with
    | some p => " extends " ++ p.text
    | none => ""
  let members := if i.members.isEmpty then " \x7b\x7d"
    else " \x7b\n" ++ indented ";" (i.members.map TypeExpr.memberText) ++ "\x7d"
  "interface " ++ i.name ++ parent ++ members

/-- The text of a type alias. -/
def TypeAlias.text (a : TypeAlias) : String := "type " ++ a.head.text ++ " = " ++ a.type.text

/-- The text of a constant: a line for each entry. -/
def Constant.text (c : Constant) : String :=
  let entries := if c.entries.isEmpty then "\x7b\x7d"
    else "\x7b\n" ++ indented "," (c.entries.map fun (key, expression) => key ++ ": " ++ expression) ++ "\x7d"
  "const " ++ c.name ++ " = " ++ entries

/-- The text of a declaration. -/
def Declaration.text : Declaration → String
  | .interface i => i.text
  | .alias a => a.text
  | .constant c => c.text

/-- The text of a declaration that others may import. -/
def Declaration.exported (d : Declaration) : String := "export " ++ d.text

/-- The text of an import. -/
def Import.text (i : Import) : String := "import \x7b " ++ separated ", " i.names ++ " \x7d from " ++ quoted i.module

/-- The text of an augmentation: its interfaces, two spaces further in. -/
def Augmentation.text (a : Augmentation) : String :=
  "declare module " ++ quoted a.module ++ " \x7b\n" ++
    indented "" (a.interfaces.flatMap fun i => Text.splitLines [] i.text.toList) ++ "\x7d"

end SchemaTypings.TypeScript

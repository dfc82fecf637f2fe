import SchemaTypings.Path
import SchemaTypings.Settings.Decode

/-!
# Project configuration

The configuration of a project names the schema file and the output directory, beside the models, the context and the
switches. Paths in it are relative to the file that holds it.
-/

namespace SchemaTypings

/-- The configuration of a project. -/
structure ProjectConfig where
  /-- The path of the schema file. -/
  schema : String
  /-- The path of the output directory. -/
  output : String
  switches : Switches
  context : Option ContextType
  models : ModelMap
  deriving DecidableEq, Repr

namespace ProjectConfig

/-- The context of a project. A list may go on after the two parts of a context. -/
def context? : Setting → Option ContextType
  | .list (typeName :: module :: _) => ContextType.ofSetting? (.list [typeName, module])
  | s => ContextType.ofSetting? s

/-- Reads a configuration from a table, of which other keys are ignored. -/
def ofSetting? : Setting → Option ProjectConfig
  | .table es => do
    let context ← match es.lookup "context" with
      | none => some none
      | some s => (context? s).map some
    let models ← match es.lookup "models" with
      | none => some .empty
      | some s => ModelMap.ofSetting? s
    return {
      schema := ← (← es.lookup "schema").text?
      output := ← (← es.lookup "output").text?
      switches := ← Switches.ofSetting? (.table es)
      context
      models }
  | _ => none

/-- Reads the paths of a configuration as relative to the file at a path. -/
def relativeTo (path : String) (c : ProjectConfig) : ProjectConfig :=
  match Path.parent? path with
  | some base => { c with schema := Path.join base c.schema, output := Path.join base c.output }
  | none => c

end ProjectConfig

end SchemaTypings

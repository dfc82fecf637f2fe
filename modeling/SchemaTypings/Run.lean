import SchemaTypings.Files
import SchemaTypings.Help
import SchemaTypings.Sdl.Grammar
import SchemaTypings.Sdl.Scope
import SchemaTypings.Settings.Project
import SchemaTypings.Toml.Document

/-!
# Runs of the command

A run reads the configuration and the schema, generates all units and then writes them. Nothing is written before every
unit is ready.

- `ProjectConfig.load` reads a configuration file;
- `runWith` is a run with given options, `runCommand` a run with arguments and environment.
-/

namespace SchemaTypings

/-- Why a run fails. -/
inductive RunFault where
  | readingConfiguration (path : String)
  | parsingConfiguration (path : String)
  | readingSchema (path : String)
  /-- The schema file does not hold a schema text. -/
  | malformedSchema
  /-- The schema text has a block string that cannot be stripped of its indentation. -/
  | raggedSchema
  | schema (f : Fault)
  | writing (f : WriteFault)
  deriving DecidableEq, Repr

/-- The wording of a fault. -/
def RunFault.message : RunFault → String
  | .readingConfiguration path => "reading configuration from " ++ path
  | .parsingConfiguration path => "parsing configuration at " ++ path
  | .readingSchema path => "reading schema from " ++ path
  | .malformedSchema => "Failed to parse the schema"
  | .raggedSchema => "The indentation of a block string divides a character"
  | .schema f => f.message
  | .writing f => f.message

/-- The exit code of a run that fails. -/
def RunFault.exitCode : RunFault → Nat
  | .raggedSchema => 101
  | _ => 1

/-- What a run reports about its failure. A ragged block string breaks it off without a report. -/
def RunFault.report? : RunFault → Option String
  | .raggedSchema => none
  | f => some f.message

/-- What a run leaves besides files. -/
structure Outcome where
  exitCode : Nat
  output : String
  /-- Why the run failed, if it got as far as running. -/
  fault : Option RunFault
  /-- Why there was no run, if there was none. -/
  halt : Option Halt
  deriving DecidableEq, Repr

/-- What is reported about a run that failed, if anything is. -/
def Outcome.report? (o : Outcome) : Option String := o.fault.bind RunFault.report?

/-- The outcome of arguments that make no run. Asking for help or the version is no failure. -/
def Outcome.ofHalt (env : Environment) (onTerminal : Bool) : Halt → Outcome
  | .helpRequested detailed =>
    let text := helpText env detailed
    ⟨0, if env.keepsStyle onTerminal then text else Text.plain text, none, some (.helpRequested detailed)⟩
  | .versionRequested => ⟨0, versionText, none, some .versionRequested⟩
  | h => ⟨2, "", none, some h⟩

variable {m : Type → Type} [Monad m]

/-- Reads the configuration file at a path. -/
def ProjectConfig.load (files : Files m) (path : String) : ExceptT RunFault m ProjectConfig := do
  let some text ← files.read path | throw (.readingConfiguration path)
  let some config := Toml.parse? text >>= ProjectConfig.ofSetting? | throw (.parsingConfiguration path)
  return config.relativeTo path

/-- What a run makes of a fault of a schema text. -/
def RunFault.ofText : Sdl.TextFault → RunFault
  | .malformed => .malformedSchema
  | .ragged => .raggedSchema

/-- The source that a configuration describes, whose schema file has the given text. -/
def ProjectConfig.source (c : ProjectConfig) (schemaText : String) : Except RunFault Source := do
  let document ← (Sdl.Document.parse schemaText).mapError .ofText
  let schema ← document.schema.mapError .schema
  return ⟨schema, c.models, c.context, c.switches⟩

/-- The units of a configuration, and the directory to write them to. -/
def prepare (files : Files m) (format : Formatter) (options : Options) :
    ExceptT RunFault m (String × List OutputUnit) := do
  let config ← ProjectConfig.load files options.config
  let some text ← files.read config.schema | throw (.readingSchema config.schema)
  let source ← liftExcept (config.source text)
  let format := if options.noFormat then Formatter.passthrough else format
  let units ← liftExcept ((source.generate format).mapError .schema)
  return (config.output, units)
where
  /-- A result that depends on no files. -/
  liftExcept {α : Type} (e : Except RunFault α) : ExceptT RunFault m α := ExceptT.mk (pure e)

/-- A run with given options. -/
def runWith (files : Files m) (format : Formatter) (options : Options) : ExceptT RunFault m Summary := do
  let (output, units) ← prepare files format options
  (files.writeUnits output units).adapt .writing

/-- A run of the command, whose output may go to a terminal. -/
def runCommand (files : Files m) (format : Formatter) (env : Environment) (onTerminal : Bool) (argv : List String) :
    m Outcome :=
  match Options.ofArguments env argv with
  | .error h => return .ofHalt env onTerminal h
  | .ok options => do
    match ← (runWith files format options).run with
    | .ok _ => return ⟨0, "", none, none⟩
    | .error f => return ⟨f.exitCode, "", some f, none⟩

end SchemaTypings

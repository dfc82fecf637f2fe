/-!
# Command line

The options of the command and how they are read from arguments and environment variables.

- A value may stand in an argument of its own, after an equals sign, or right behind a short name.
- An option that still lacks its value gets it before the next known option is read. An unknown argument is reported
  even then.
- An environment variable counts when its option is absent.
-/

namespace SchemaTypings

/-- How much is logged. -/
inductive LogLevel where
  | off
  | error
  | warn
  | info
  | debug
  | trace
  deriving DecidableEq, Repr

namespace LogLevel

/-- The name of a level. -/
def name : LogLevel → String
  | .off => "off"
  | .error => "error"
  | .warn => "warn"
  | .info => "info"
  | .debug => "debug"
  | .trace => "trace"

/-- The levels, from the quietest on. -/
def all : List LogLevel := [off, error, warn, info, debug, trace]

/-- The level of a name. -/
def ofName? (name : String) : Option LogLevel := all.find? (·.name == name)

/-- The filter for log messages that a level stands for. The extreme levels apply to all messages, the others to those
of the command and its library. -/
def filter : LogLevel → String
  | .off => "off"
  | .trace => "trace"
  | level => "typed_resolvers=" ++ level.name ++ ",graphql_typed_resolvers=" ++ level.name ++ ",off"

end LogLevel

/-- What a run of the command depends on. -/
structure Options where
  /-- The path of the configuration file. -/
  config : String
  log : LogLevel
  /-- Whether code is written as it is, without formatting. -/
  noFormat : Bool
  deriving DecidableEq, Repr

/-- Why reading arguments ends without options. -/
inductive Halt where
  | unknownArgument
  /-- A value is missing, empty, or none of those that are possible. -/
  | invalidValue
  /-- An option is given twice. -/
  | repeatedOption
  /-- A flag is given a value. -/
  | unexpectedValue
  /-- Help is asked for, perhaps in detail. -/
  | helpRequested (detailed : Bool)
  | versionRequested
  deriving DecidableEq, Repr

/-- Options that take a value. -/
inductive ValueOption where
  | config
  | log
  deriving DecidableEq, Repr

/-- The environment: the values of the variables that are set. -/
abbrev Environment := List (String × String)

/-- The state of reading arguments. -/
structure ArgumentState where
  config : Option String
  log : Option LogLevel
  noFormat : Bool
  /-- The option read last and its value, while they have not been taken over. -/
  pending : Option (ValueOption × Option String)
  deriving DecidableEq, Repr

namespace ArgumentState

/-- Nothing read yet. -/
def initial : ArgumentState := ⟨none, none, false, none⟩

/-- Sets the configuration path. -/
def setConfig (s : ArgumentState) (value : String) : Except Halt ArgumentState :=
  if value.isEmpty then .error .invalidValue else .ok { s with config := some value }

/-- Sets the log level. -/
def setLog (s : ArgumentState) (value : String) : Except Halt ArgumentState :=
  match LogLevel.ofName? value with
  | some level => .ok { s with log := some level }
  | none => .error .invalidValue

/-- Takes over an option with its value. That a value is there is checked first, and then that the option is new. -/
def store (s : ArgumentState) (o : ValueOption) : Option String → Except Halt ArgumentState
  | none => .error .invalidValue
  | some value =>
    match o with
    | .config => if s.config.isSome then .error .repeatedOption else s.setConfig value
    | .log => if s.log.isSome then .error .repeatedOption else s.setLog value

/-- Takes over the pending option. -/
def resolve (s : ArgumentState) : Except Halt ArgumentState :=
  match s.pending with
  | none => .ok s
  | some (o, value) => { s with pending := none }.store o value

/-- Reads an option with the value attached to it, if any. -/
def option (s : ArgumentState) (o : ValueOption) (attached : Option String) : Except Halt ArgumentState := do
  let s ← s.resolve
  match attached with
  | some value => s.store o (some value)
  | none => return { s with pending := some (o, none) }

/-- Reads a flag that ends the reading. -/
def halt (s : ArgumentState) (h : Halt) : Except Halt ArgumentState := do
  let _ ← s.resolve
  throw h

/-- Reads the flag that turns formatting off. -/
def setNoFormat (s : ArgumentState) : Except Halt ArgumentState := do
  let s ← s.resolve
  if s.noFormat then throw .repeatedOption else return { s with noFormat := true }

/-- Reads an argument with a long name. -/
def long (s : ArgumentState) (name : String) (attached : Option String) : Except Halt ArgumentState :=
  let flag (read : Except Halt ArgumentState) := if attached.isSome then .error .unexpectedValue else read
  match name with
  | "config" => s.option .config attached
  | "log" => s.option .log attached
  | "no-format" => flag s.setNoFormat
  | "help" => flag (s.halt (.helpRequested true))
  | "version" => flag (s.halt .versionRequested)
  | _ => .error .unknownArgument

/-- The value attached to a short name by what follows it. -/
def attachedValue : List Char → Option String
  | [] => none
  | '=' :: cs => some (String.ofList cs)
  | cs => some (String.ofList cs)

/-- Reads an argument with a short name, given without its hyphen. -/
def short (s : ArgumentState) : List Char → Except Halt ArgumentState
  | 'c' :: rest => s.option .config (attachedValue rest)
  | 'h' :: _ => s.halt (.helpRequested false)
  | 'V' :: _ => s.halt .versionRequested
  | _ => .error .unknownArgument

/-- Reads an argument that names no option: the value of a pending one. -/
def plain (s : ArgumentState) (value : String) : Except Halt ArgumentState :=
  match s.pending with
  | some (o, none) => .ok { s with pending := some (o, some value) }
  | _ => .error .unknownArgument

/-- Splits at the first equals sign. -/
def splitValue (cs : List Char) : String × Option String :=
  match cs.dropWhile (· != '=') with
  | [] => (String.ofList cs, none)
  | _ :: value => (String.ofList (cs.takeWhile (· != '=')), some (String.ofList value))

/-- Reads arguments. After two hyphens alone no argument is known. -/
def arguments (s : ArgumentState) : List String → Except Halt ArgumentState
  | [] => s.resolve
  | arg :: rest => do
    match arg.toList with
    | ['-', '-'] => if rest.isEmpty then s.resolve else throw .unknownArgument
    | '-' :: '-' :: cs =>
      let (name, attached) := splitValue cs
      (← s.long name attached).arguments rest
    | '-' :: c :: cs => (← s.short (c :: cs)).arguments rest
    | _ => (← s.plain arg).arguments rest

/-- Fills in what environment variables say about absent options. -/
def environment (s : ArgumentState) (env : Environment) : Except Halt ArgumentState := do
  let s ← match s.config, env.lookup "TYPED_RESOLVERS_CONFIG" with
    | none, some value => s.setConfig value
    | _, _ => pure s
  match s.log, env.lookup "TYPED_RESOLVERS_LOG" with
  | none, some value => s.setLog value
  | _, _ => return s

end ArgumentState

namespace Options

/-- The path of the configuration file when none is given. -/
def defaultConfig : String := "./typed-resolvers.toml"

/-- Reads the arguments of the command, of which the first is its name. -/
def ofArguments (env : Environment) (argv : List String) : Except Halt Options := do
  let s ← (← ArgumentState.initial.arguments argv.tail).environment env
  return ⟨s.config.getD defaultConfig, s.log.getD .info, s.noFormat⟩

end Options

end SchemaTypings

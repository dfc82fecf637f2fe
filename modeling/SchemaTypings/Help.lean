import SchemaTypings.CommandLine
import SchemaTypings.Text.Terminal

/-!
# Help

What the command says about its options, in two layouts.

- `helpText` without detail has a line for each option, and the texts stand in one column;
- with detail each option has a paragraph, which also gives the meanings of possible values.

The text is laid out for a terminal: names are in bold, and values of variables stand in it as they are.
`Environment.keepsStyle` tells whether it is written like that.
-/

namespace SchemaTypings

open Text

/-- What a log level lets through. -/
def LogLevel.meaning : LogLevel → String
  | .off => "Completely disables logging"
  | .error => "Only errors"
  | .warn => "Warnings and errors"
  | .info => "Info, warning and error messages"
  | .debug => "Debug messages from the generator, including one span per rendered entity"
  | .trace => "Everything, dependencies included"

/-- What the help says about an option. -/
structure OptionHelp where
  /-- The short name, if there is one. -/
  short : Option Char
  long : String
  /-- What stands for the value of the option, if it takes one. -/
  placeholder : String
  purpose : String
  /-- Where a value comes from when the option is absent. -/
  sources : List String
  /-- The possible values and their meanings, if they are known. -/
  values : List (String × String)
  deriving DecidableEq, Repr

namespace OptionHelp

/-- The names of an option, where those that can be typed pass through `style`. -/
def names (style : String → String) (o : OptionHelp) : String :=
  let short := match o.short with
    | some c => style ("-" ++ c.toString) ++ ", "
    | none => "    "
  short ++ style ("--" ++ o.long) ++ o.placeholder

/-- How many characters the names of an option take. -/
def width (o : OptionHelp) : Nat := (o.names id).length

/-- Some blanks. -/
def blanks (n : Nat) : String := "".pushn ' ' n

/-- A text whose lines after the first one start behind a margin. Values of variables may hold line breaks. -/
def hanging (margin : Nat) (text : String) : String := text.replace "\n" ("\n" ++ blanks margin)

/-- The option in one line, with a column of the given width for the names. -/
def line (column : Nat) (o : OptionHelp) : String :=
  let values := if o.values.isEmpty then [] else
    ["[possible values: " ++ ", ".intercalate (o.values.map Prod.fst) ++ "]"]
  "  " ++ o.names strong ++ blanks (column - o.width) ++ "  " ++
    hanging (column + 4) (" ".intercalate (o.purpose :: o.sources ++ values))

/-- The margin of a paragraph. -/
def margin : Nat := 10

/-- The option in a paragraph. -/
def paragraph (o : OptionHelp) : String :=
  let column := (o.values.map (·.1.length)).foldl max 0
  let values := o.values.map fun (value, meaning) =>
    "- " ++ strong value ++ ": " ++ blanks (column - value.length) ++ meaning
  let values := if o.values.isEmpty then [] else "" :: ("Possible values:" :: values).map (blanks margin ++ ·)
  let sources := if o.sources.isEmpty then [] else ("" :: o.sources).map (blanks margin ++ hanging margin ·)
  "\n".intercalate (("  " ++ o.names strong) :: (blanks margin ++ o.purpose) :: values ++ sources)

end OptionHelp

/-- The options of the command. -/
def optionHelps (env : Environment) (detailed : Bool) : List OptionHelp :=
  let fromVariable (name : String) := "[env: " ++ name ++ "=" ++ (env.lookup name).getD "" ++ "]"
  let other := if detailed then "see a summary with '-h'" else "see more with '--help'"
  [ ⟨some 'c', "config", " <CONFIG>", "Path to the TOML configuration file",
      [fromVariable "TYPED_RESOLVERS_CONFIG", "[default: " ++ Options.defaultConfig ++ "]"], []⟩,
    ⟨none, "log", " <LOG_LEVEL>", "Set the logging level",
      [fromVariable "TYPED_RESOLVERS_LOG", "[default: " ++ LogLevel.info.name ++ "]"],
      LogLevel.all.map fun level => (level.name, level.meaning)⟩,
    ⟨none, "no-format", "", "Write the generated code as is, without running the formatter", [], []⟩,
    ⟨some 'h', "help", "", "Print help (" ++ other ++ ")", [], []⟩,
    ⟨some 'V', "version", "", "Print version", [], []⟩ ]

/-- What the command says about itself, for a terminal. -/
def helpText (env : Environment) (detailed : Bool) : String :=
  let options := optionHelps env detailed
  let body :=
    if detailed then "\n\n".intercalate (options.map OptionHelp.paragraph)
    else "\n".intercalate (options.map (OptionHelp.line ((options.map OptionHelp.width).foldl max 0)))
  "Generates TypeScript resolver signatures from a GraphQL schema\n\n" ++
    headline "Usage:" ++ " " ++ strong "typed-resolvers" ++ " [OPTIONS]\n\n" ++
    headline "Options:" ++ "\n" ++ body ++ "\n"

/-- Whether a variable is set, and not to the empty text. -/
def Environment.isFilled (env : Environment) (name : String) : Bool := (env.lookup name).any (!·.isEmpty)

/-- Whether a text keeps its style when it is written. `NO_COLOR` takes style away, and failing that `CLICOLOR_FORCE`
keeps it. Otherwise only terminals get style, and `CLICOLOR` decides for them. When that is not set either, a terminal
gets style if it has a name that is not `dumb`, or in continuous integration. -/
def Environment.keepsStyle (env : Environment) (onTerminal : Bool) : Bool :=
  if env.isFilled "NO_COLOR" then false
  else if env.isFilled "CLICOLOR_FORCE" then true
  else
    match env.lookup "CLICOLOR" with
    | some value => onTerminal && value != "0"
    | none => onTerminal && ((env.lookup "TERM").any (· != "dumb") || (env.lookup "CI").isSome)

/-- The variables that the command looks up. -/
def Environment.knownNames : List String :=
  ["TYPED_RESOLVERS_CONFIG", "TYPED_RESOLVERS_LOG", "NO_COLOR", "CLICOLOR_FORCE", "CLICOLOR", "TERM", "CI"]

/-- The name and version of the command. -/
def versionText : String := "typed-resolvers 0.1.0\n"

end SchemaTypings

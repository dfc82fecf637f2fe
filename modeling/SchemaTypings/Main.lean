import SchemaTypings.Run

/-!
# The command

The outermost layer: runs the command on the files of the computer.
-/

namespace SchemaTypings

/-- Whether an action goes through without an exception. -/
def succeeds (action : IO Unit) : IO Bool := do
  try
    action
    return true
  catch _ => return false

/-- The operations on the files of the computer. -/
def diskFiles : Files IO where
  read path := do
    try return some (← IO.FS.readFile path)
    catch _ => return none
  exists? path := succeeds do
    let _ ← IO.FS.realPath path
  createDirectories path := succeeds (unless path.isEmpty do IO.FS.createDirAll path)
  write path text := succeeds (IO.FS.writeFile path text)

/-- The environment variables that the command knows. -/
def readEnvironment : IO Environment := do
  let values ← Environment.knownNames.mapM fun name => do
    return (← IO.getEnv name).map (name, ·)
  return values.filterMap id

/-- What is said about arguments that make no run. -/
def Halt.message : Halt → String
  | .unknownArgument => "unexpected argument found"
  | .invalidValue => "a value is missing or not possible"
  | .repeatedOption => "an option cannot be used multiple times"
  | .unexpectedValue => "a flag was given a value"
  | .helpRequested _ | .versionRequested => ""

end SchemaTypings

open SchemaTypings in
/-- Runs the command. Code is written as it is laid out here, since no formatter is linked in. -/
def main (arguments : List String) : IO UInt32 := do
  let onTerminal ← (← IO.getStdout).isTty
  let outcome ← runCommand diskFiles .passthrough (← readEnvironment) onTerminal ("typed-resolvers" :: arguments)
  IO.print outcome.output
  if let some report := outcome.report? then IO.eprintln ("Error: " ++ report)
  if outcome.exitCode = 2 then
    if let some h := outcome.halt then IO.eprintln ("error: " ++ h.message)
  return outcome.exitCode.toUInt32

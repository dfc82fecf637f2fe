import SchemaTypings.Files
import SchemaTypings.OrderedMap

/-!
# Trees of files

A model of a disk: what stands at each place, a place being the names that lead to it from the root. Paths are followed
name by name as an operating system does, through directories only.

- `FileTree.follow` finds the place that a path leads to;
- `mkdir`, `write` and `read` are the single operations, each of which fails without effect;
- `FileTree.files` offers them as the operations that units are written with.
-/

namespace SchemaTypings

/-- What stands at a place. -/
inductive FileNode where
  | directory
  | file (text : String)
  /-- A file that cannot be read as a text. -/
  | unreadable (bytes : List UInt8)
  deriving DecidableEq, Repr

/-- Why an operation on a path fails. -/
inductive PathFault where
  /-- A name on the path does not exist. -/
  | notFound
  /-- The path leads through something that is no directory. -/
  | notDirectory
  /-- Something stands where something new is to be made. -/
  | occupied
  /-- The path or a name in it cannot exist, or does not name what the operation needs. -/
  | invalid
  deriving DecidableEq, Repr

/-- A place: the names on the way from the root. -/
abbrev Place := List String

/-- A tree of files without links. -/
structure FileTree where
  /-- What stands at places other than the root. -/
  nodes : OrderedMap Place FileNode
  /-- The directory at which relative paths start. -/
  workingDirectory : Place
  deriving DecidableEq, Repr

namespace FileTree

/-- What stands at a place. The root is a directory. -/
def node? (t : FileTree) (place : Place) : Option FileNode :=
  if place = [] then some .directory else t.nodes.get? place

/-- Puts something at a place. -/
def put (t : FileTree) (place : Place) (node : FileNode) : FileTree := { t with nodes := t.nodes.insert place node }

/-! ## Following paths -/

/-- How many bytes a name may have. -/
def maxNameSize : Nat := 255

/-- The steps of a path: its texts between slashes. -/
def steps (path : String) : List String := (Path.segments path.toList).map String.ofList

/-- How many bytes a path may have. -/
def maxPathSize : Nat := 4095

/-- Whether a path can be asked for at all. -/
def isPath (path : String) : Bool :=
  !path.isEmpty && path.utf8ByteSize ≤ maxPathSize && path.toList.all (· != '\x00')

/-- The place at which a path starts. -/
def start (t : FileTree) (path : String) : Place := if Path.isAbsolute path then [] else t.workingDirectory

/-- Whether a step stays in a directory. -/
def isIdle (step : String) : Bool := step == "" || step == "."

/-- Follows steps from a place. Even an idle step needs a directory to stay in. -/
def follow (t : FileTree) (place : Place) : List String → Except PathFault Place
  | [] => .ok place
  | step :: rest =>
    if t.node? place ≠ some .directory then .error .notDirectory
    else if isIdle step then t.follow place rest
    else if step = ".." then t.follow place.dropLast rest
    else if maxNameSize < step.utf8ByteSize then .error .invalid
    else if (t.node? (place ++ [step])).isSome then t.follow (place ++ [step]) rest
    else .error .notFound

/-- The place that a path leads to, where something stands. -/
def locate (t : FileTree) (path : String) : Except PathFault Place :=
  if isPath path then t.follow (t.start path) (steps path)
  else .error (if path.isEmpty then .notFound else .invalid)

/-- The directory and the name to which the steps of a path lead, the steps being given last first. -/
def target (t : FileTree) (path : String) : List String → Except PathFault (Place × String)
  | [] => .error .occupied
  | name :: above => do
    let place ← t.follow (t.start path) above.reverse
    if t.node? place ≠ some .directory then throw .notDirectory
    if isIdle name || name == ".." then throw .occupied
    if maxNameSize < name.utf8ByteSize then throw .invalid
    return (place, name)

/-! ## Operations -/

/-- Whether a path leads to anything. -/
def pathExists (t : FileTree) (path : String) : Bool := (t.locate path).isOk

/-- Whether a path leads to a directory. -/
def isDirectory (t : FileTree) (path : String) : Bool :=
  match t.locate path with
  | .ok place => t.node? place = some .directory
  | .error _ => false

/-- The text of the file that a path leads to, if it has one. -/
def read (t : FileTree) (path : String) : Option String :=
  match t.locate path with
  | .ok place =>
    match t.node? place with
    | some (.file text) => some text
    | _ => none
  | .error _ => none

/-- Makes a directory. Slashes at the end of its path do not count. -/
def mkdir (t : FileTree) (path : String) : Except PathFault FileTree :=
  if isPath path then do
    let (place, name) ← t.target path ((steps path).reverse.dropWhile (· == ""))
    if (t.node? (place ++ [name])).isSome then throw .occupied
    return t.put (place ++ [name]) .directory
  else .error (if path.isEmpty then .notFound else .invalid)

/-- Gives the file at a path a text. The file need not exist, but its directory must. -/
def write (t : FileTree) (path text : String) : Except PathFault FileTree :=
  if isPath path then do
    let (place, name) ← t.target path (steps path).reverse
    if t.node? (place ++ [name]) = some .directory then throw .occupied
    return t.put (place ++ [name]) (.file text)
  else .error (if path.isEmpty then .notFound else .invalid)

/-- Makes the first of several directories, each of which lies in the next one, with those of them that are missing. The
tree is returned also after a failure, since directories made before it stay. -/
def createChain (t : FileTree) : List String → Bool × FileTree
  | [] => (false, t)
  | path :: above =>
    if path = "" then (true, t)
    else
      match t.mkdir path with
      | .ok t' => (true, t')
      | .error .notFound =>
        match t.createChain above with
        | (false, t') => (false, t')
        | (true, t') =>
          match t'.mkdir path with
          | .ok t'' => (true, t'')
          | .error _ => (t'.isDirectory path, t')
      | .error _ => (t.isDirectory path, t)

/-- Makes a directory with those above it that are missing. -/
def createDirectories (t : FileTree) (path : String) : Bool × FileTree := t.createChain (path :: Path.ancestors path)

/-- Removes what a path leads to, with all below it. -/
def remove (t : FileTree) (path : String) : FileTree :=
  match t.locate path with
  | .ok place => { t with nodes := ⟨t.nodes.entries.filter fun e => !place.isPrefixOf e.1⟩ }
  | .error _ => t

/-- What a listing shows of a place. -/
inductive Listed where
  | directory
  | file (text : String)
  deriving DecidableEq, Repr

/-- A listing shows directories and files with a text. -/
def listed? : FileNode → Option Listed
  | .directory => some .directory
  | .file text => some (.file text)
  | .unreadable _ => none

/-- What is listed below a place, with the names that lead to it from there. -/
def below (t : FileTree) (place : Place) : List (Place × Listed) :=
  t.nodes.entries.filterMap fun (p, node) =>
    if place.isPrefixOf p && p != place then (listed? node).map (p.drop place.length, ·) else none

/-! ## The operations on files in a tree -/

/-- The operations on the files of a tree. -/
def files : Files (StateM FileTree) where
  read path := return (← get).read path
  exists? path := return (← get).pathExists path
  createDirectories path := modifyGet fun t => t.createDirectories path
  write path text := modifyGet fun t =>
    match t.write path text with
    | .ok t' => (true, t')
    | .error _ => (false, t)

/-- Writes units below a directory of a tree. -/
def writeUnits (t : FileTree) (output : String) (us : List OutputUnit) : Except WriteFault Summary × FileTree :=
  (files.writeUnits output us).run.run t

end FileTree

end SchemaTypings

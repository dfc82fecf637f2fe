/-!
# Paths

Paths are texts with segments between slashes. Nothing is normalised: a path is printed as it was put together.

- `Path.join` reads a path relative to a base;
- `Path.parent?` and `Path.ancestors` drop the last segments. Empty segments and single full stops do not count as
  segments, except for a full stop at the start.
-/

namespace SchemaTypings.Path

/-- The texts between slashes. -/
def segments : List Char → List (List Char)
  | [] => [[]]
  | c :: cs =>
    if c = '/' then [] :: segments cs
    else
      match segments cs with
      | [] => [[c]]
      | s :: ss => (c :: s) :: ss

/-- Puts slashes between segments. -/
def glue : List (List Char) → List Char
  | [] => []
  | [s] => s
  | s :: t :: ss => s ++ '/' :: glue (t :: ss)

/-- Whether a path starts at the root. -/
def isAbsolute (path : String) : Bool := path.toList.head? == some '/'

/-- A path as seen from a base. An absolute path stands for itself. -/
def join (base path : String) : String :=
  if isAbsolute path then path
  else if base.isEmpty || base.toList.getLast? == some '/' then base ++ path
  else base ++ "/" ++ path

/-- Segments that do not lead anywhere. -/
def isTrivial (segment : List Char) : Bool := segment.isEmpty || segment == ['.']

/-- The start of a path that is never dropped with a segment, and the rest: the slash of the root, or a full stop. -/
def splitStart : List Char → List Char × List Char
  | '/' :: cs => (['/'], cs)
  | ['.'] => (['.'], [])
  | '.' :: '/' :: cs => (['.'], '/' :: cs)
  | cs => ([], cs)

/-- The paths above segments, which are given last first, the nearest path first. -/
def ancestorsOf (start : List Char) : List (List Char) → List String
  | [] => if start = ['.'] then [""] else []
  | s :: above =>
    if isTrivial s then ancestorsOf start above
    else String.ofList (start ++ glue (above.dropWhile isTrivial).reverse) :: ancestorsOf start above

/-- The paths above a path, the nearest first. -/
def ancestors (path : String) : List String :=
  let (start, body) := splitStart path.toList
  ancestorsOf start (segments body).reverse

/-- The path of the directory that holds what a path leads to. The root and the empty path have none. -/
def parent? (path : String) : Option String := (ancestors path).head?

end SchemaTypings.Path

import SchemaTypings.Path
import SchemaTypings.Unit

/-!
# Writing units

Units are written below an output directory, one after another. What must be done to files is asked of a `Files`, so
that the same steps run on a disk and on a model of one.

- A unit that may carry edits is left alone when something exists at its path.
- The first failure ends the run; what was written before it stays.
-/

namespace SchemaTypings

/-- What can be done to files. -/
structure Files (m : Type → Type) where
  /-- The text of a file, if there is a readable one. -/
  read : String → m (Option String)
  /-- Whether a path leads to anything. -/
  exists? : String → m Bool
  /-- Makes a directory and those above it that are missing, and says whether the directory is there now. -/
  createDirectories : String → m Bool
  /-- Gives a file a text, and says whether that went well. -/
  write : (path text : String) → m Bool

/-- What was done with the paths of units. -/
structure Summary where
  written : List String
  skipped : List String
  deriving DecidableEq, Repr

/-- Why units could not be written. -/
inductive WriteFault where
  | creatingDirectory (path : String)
  | writing (path : String)
  deriving DecidableEq, Repr

/-- The wording of a fault. -/
def WriteFault.message : WriteFault → String
  | .creatingDirectory path => "creating directory " ++ path
  | .writing path => "writing " ++ path

namespace Files

variable {m : Type → Type} [Monad m] (files : Files m)

/-- Writes a file, after the directory that holds it. -/
def writeBelow (path text : String) : ExceptT WriteFault m Unit := do
  if let some directory := Path.parent? path then
    unless ← files.createDirectories directory do throw (.creatingDirectory directory)
  unless ← files.write path text do throw (.writing path)

/-- Writes units below a directory in order. -/
def writeUnits (output : String) : List OutputUnit → ExceptT WriteFault m Summary
  | [] => return ⟨[], []⟩
  | u :: us => do
    let path := Path.join output u.path
    let keep ← if u.forceOverwrite then pure false else files.exists? path
    if keep then
      let s ← writeUnits output us
      return { s with skipped := path :: s.skipped }
    else
      files.writeBelow path u.content
      let s ← writeUnits output us
      return { s with written := path :: s.written }

end Files

end SchemaTypings

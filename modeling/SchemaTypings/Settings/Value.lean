/-!
# Settings

A setting is a value as a configuration file holds it, whatever the notation of the file. Numbers and dates keep only
what a configuration can ask of them.
-/

namespace SchemaTypings

/-- A value of a configuration. -/
inductive Setting where
  | null
  | bool (b : Bool)
  /-- A number of a notation that tells counts from other integers. -/
  | count (n : Nat)
  /-- Any other number. -/
  | number
  /-- A date, a time, or both. -/
  | date
  | text (s : String)
  | list (xs : List Setting)
  /-- Named values in order. -/
  | table (entries : List (String × Setting))
  deriving Inhabited, Repr

namespace Setting

/-- The text that a setting is. -/
def text? : Setting → Option String
  | .text s => some s
  | _ => none

/-- The truth value that a setting is. -/
def bool? : Setting → Option Bool
  | .bool b => some b
  | _ => none

/-- The texts that a setting lists. -/
def texts? : Setting → Option (List String)
  | .list xs => xs.mapM text?
  | _ => none

end Setting

end SchemaTypings

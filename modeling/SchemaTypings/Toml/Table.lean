import SchemaTypings.OrderedMap
import SchemaTypings.Settings.Value

/-!
# Tables of a TOML document

A document builds its tables up statement by statement, and a table may be mentioned before it is defined. An item
therefore remembers how it came about, because that decides what may still be added to it.

- `assign` sets a value under a dotted key; it creates the tables on the way and enters only tables that were created
  that way.
- `openTable` starts the table of a header, which must be new or only mentioned so far.
- `openElement` starts a table in an array of tables.
-/

namespace SchemaTypings.Toml

/-- What a name stands for while a document is read. -/
inductive Item where
  /-- A finished value. -/
  | value (v : Setting)
  /-- A table: whether it is only mentioned so far, and whether it was mentioned by a dotted key. -/
  | table (implicit dotted : Bool) (entries : List (String × Item))
  /-- An array of tables, the last of which may still grow. -/
  | tables (elements : List (List (String × Item)))

/-- The entries of a table. -/
abbrev Entries := List (String × Item)

mutual

/-- The setting that an item amounts to. -/
def Item.setting : Item → Setting
  | .value v => v
  | .table _ _ es => .table (entrySettings es)
  | .tables ts => .list (elementSettings ts)

/-- The settings that entries amount to. -/
def entrySettings : List (String × Item) → List (String × Setting)
  | [] => []
  | (k, i) :: es => (k, i.setting) :: entrySettings es

/-- The settings that the elements of an array of tables amount to. -/
def elementSettings : List (List (String × Item)) → List Setting
  | [] => []
  | es :: ts => .table (entrySettings es) :: elementSettings ts

end

namespace Entries

/-- Edits the table at a path below a table, which is `isDotted` itself. Tables that are missing on the way are created.
A path leads through the last element of an array of tables, and along `dotted` keys through no table with a header. -/
def editAt (dotted : Bool) (edit : Bool → Entries → Option Entries) (isDotted : Bool) (es : Entries) :
    List String → Option Entries
  | [] => edit isDotted es
  | k :: path =>
    match es.lookup k with
    | none => do
      return OrderedMap.insertEntry k (.table true dotted (← editAt dotted edit dotted [] path)) es
    | some (.value _) => none
    | some (.table implicit d sub) =>
      if dotted && !implicit then none
      else do return OrderedMap.insertEntry k (.table implicit d (← editAt dotted edit d sub path)) es
    | some (.tables elements) => do
      let last ← elements.getLast?
      return OrderedMap.insertEntry k (.tables (elements.dropLast ++ [← editAt dotted edit false last path])) es

/-- Sets a value under a key at a path. The last table on the path must have been made by dotted keys. -/
def assign (path : List String) (key : String) (v : Setting) (es : Entries) : Option Entries :=
  editAt true
    (fun isDotted es =>
      if isDotted == path.isEmpty || (es.lookup key).isSome then none else some (es ++ [(key, .value v)]))
    false es path

/-- Starts the table of a header. A table that was only mentioned keeps its entries and moves to the end. -/
def openTable (path : List String) (key : String) (es : Entries) : Option Entries :=
  editAt false
    (fun _ es =>
      match es.lookup key with
      | none => some (es ++ [(key, .table false false [])])
      | some (.table true false sub) => some (es.filter (·.1 != key) ++ [(key, .table false false sub)])
      | some _ => none)
    false es path

/-- Starts an element in the array of tables of a header. -/
def openElement (path : List String) (key : String) (es : Entries) : Option Entries :=
  editAt false
    (fun _ es =>
      match es.lookup key with
      | none => some (es ++ [(key, .tables [[]])])
      | some (.tables ts) => some (OrderedMap.insertEntry key (.tables (ts ++ [[]])) es)
      | some _ => none)
    false es path

/-- Sets a value in the table that a header has started. -/
def assignIn (header path : List String) (key : String) (v : Setting) (es : Entries) : Option Entries :=
  editAt false (fun _ es => assign path key v es) false es header

end Entries

end SchemaTypings.Toml

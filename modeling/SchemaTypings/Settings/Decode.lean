import SchemaTypings.Model
import SchemaTypings.Settings.Value

/-!
# Reading settings

How models, the context and the switches are written as settings. Each reader is total and says `none` for a setting
that does not have the form.

- Tables are the usual form. Models, the context and the switches may also be lists of their parts in a fixed order.
- Unknown keys are ignored, except in a context, which allows none.
-/

namespace SchemaTypings

/-! ## Models -/

/-- The kinds of entries in a model map. -/
inductive EntryKind where
  | external
  | enum
  deriving DecidableEq, Repr

/-- The kind that a setting names or counts. -/
def EntryKind.ofSetting? : Setting → Option EntryKind
  | .text "external" | .count 0 => some .external
  | .text "enum" | .count 1 => some .enum
  | _ => none

/-- A model from its parts. Fields may be left out or be `null`. -/
def Model.ofSettings? (typeName module : Setting) (fields : Option Setting) : Option Model := do
  let fields ← match fields with
    | none | some .null => some none
    | some s => s.texts?.map some
  return ⟨← typeName.text?, ← module.text?, fields⟩

/-- An entry of a model map: a table with its kind under `kind`, or a list that starts with its kind. -/
def ModelEntry.ofSetting? : Setting → Option ModelEntry
  | .table es => do
    match ← EntryKind.ofSetting? (← es.lookup "kind") with
    | .external =>
      return .external (← Model.ofSettings? (← es.lookup "type") (← es.lookup "module") (es.lookup "fields"))
    | .enum => return .enum
  | .list (kind :: parts) => do
    match ← EntryKind.ofSetting? kind, parts with
    | .external, [typeName, module] => return .external (← Model.ofSettings? typeName module none)
    | .external, [typeName, module, fields] => return .external (← Model.ofSettings? typeName module (some fields))
    | .enum, [] => return .enum
    | _, _ => none
  | _ => none

/-- The key of the default module, which no schema name is written like. -/
def defaultModuleKey : String := "default-module"

/-- A model map: a table of the default module and of entries by schema name. -/
def ModelMap.ofSetting? : Setting → Option ModelMap
  | .table es => do
    let defaultModule ← match es.lookup defaultModuleKey with
      | none | some .null => some none
      | some s => s.text?.map some
    let entries ← (es.filter (·.1 != defaultModuleKey)).mapM fun (name, s) => return (name, ← ModelEntry.ofSetting? s)
    return ⟨defaultModule, .ofLast entries⟩
  | _ => none

/-! ## Context and switches -/

/-- A context: a table of exactly `type` and `module`, or a list of the two. -/
def ContextType.ofSetting? : Setting → Option ContextType
  | .table es => do
    if es.all fun e => e.1 == "type" || e.1 == "module" then
      return ⟨← (← es.lookup "type").text?, ← (← es.lookup "module").text?⟩
    else none
  | .list [.text typeName, .text module] => return ⟨typeName, module⟩
  | _ => none

/-- A switch that is off unless it is set. -/
def switch? : Option Setting → Option Bool
  | none => some false
  | some s => s.bool?

/-- Switches: a table, or a list of the two in order. -/
def Switches.ofSetting? : Setting → Option Switches
  | .table es => return ⟨← switch? (es.lookup "default-resolvers"), ← switch? (es.lookup "iresolvers-augmentation")⟩
  | .list [] => some .off
  | .list [d] => return ⟨← d.bool?, false⟩
  | .list [d, a] => return ⟨← d.bool?, ← a.bool?⟩
  | _ => none

end SchemaTypings

import SchemaTypings.Proofs.Computation
import SchemaTypings.Unit

/-!
# Formatting

What a formatter can change about the units of a source: the text of each one, by itself.

- `Source.generate_eq`: units are formatted as soon as they are made, but could as well all be formatted in the end;
- `Source.generate_passthrough`: without a formatter units are generated as they are;
- `Formatter.Yields`: a unit before and after formatting, by whether the formatter gives up on it;
- `generate_iff_passthrough`: a formatter has no part in whether there are units, how many, and where they go.
-/

namespace SchemaTypings

theorem formatted_passthrough (us : List OutputUnit) : us.map (OutputUnit.formatted .passthrough) = us :=
  List.map_id us

namespace Source

variable (src : Source)

/-- The units of a source as they are before formatting. -/
def units : Except Fault (List OutputUnit) := do
  let a ← Associations.build src.schema
  let entities ← src.schema.entities.mapM (src.entityUnit a)
  return entities.map EntityUnit.output ++ enumsOutput src.schema.enums ++
    [(RootUnit.build src.schema src.switches).output]

/-- No formatted text is looked at by the making of a later unit, so that formatting can be left to the end. -/
theorem generate_eq (format : Formatter) :
    src.generate format = do return (← src.units).map (OutputUnit.formatted format) := by
  unfold generate units
  rw [bind_assoc]
  congr 1
  funext a
  rw [mapM_map (src.entityUnit a) fun u => u.output.formatted format]
  cases src.schema.entities.mapM (src.entityUnit a) with
  | error f => rfl
  | ok us =>
    have entities : (us.map EntityUnit.output).map (OutputUnit.formatted format) =
        us.map fun u => u.output.formatted format := List.map_map
    change Except.ok _ = Except.ok (List.map _ (_ ++ _ ++ [_]))
    rw [List.map_append, List.map_append, entities, List.map_singleton]

/-- Without a formatter units are generated as they are. -/
theorem generate_passthrough : src.generate .passthrough = src.units := by
  rw [generate_eq]
  simp only [formatted_passthrough]
  cases src.units <;> rfl

end Source

namespace Formatter

variable {format : Formatter} {raw u : OutputUnit}

/-- What becomes of a unit: it stays where it is, with the text that the formatter comes to, or with its own where the
formatter gives up. -/
structure Yields (format : Formatter) (raw u : OutputUnit) : Prop where
  path : u.path = raw.path
  forceOverwrite : u.forceOverwrite = raw.forceOverwrite
  formatted : ∀ text, format raw.path raw.content = some text → u.content = text
  kept : format raw.path raw.content = none → u.content = raw.content

theorem yields_formatted (format : Formatter) (raw : OutputUnit) : format.Yields raw (raw.formatted format) where
  path := rfl
  forceOverwrite := rfl
  formatted text h := by rw [OutputUnit.formatted, h, Option.getD_some]
  kept h := by rw [OutputUnit.formatted, h, Option.getD_none]

/-- A formatter leaves no choice about a unit. -/
theorem Yields.eq (h : format.Yields raw u) : raw.formatted format = u := by
  have content : (raw.formatted format).content = u.content := by
    cases result : format raw.path raw.content with
    | some text => rw [h.formatted text result, (yields_formatted format raw).formatted text result]
    | none => rw [h.kept result, (yields_formatted format raw).kept result]
  cases u
  exact congr (congr (congrArg OutputUnit.mk h.path.symm) h.forceOverwrite.symm) content

theorem forall₂_yields_iff {raws us : List OutputUnit} :
    List.Forall₂ format.Yields raws us ↔ raws.map (OutputUnit.formatted format) = us := by
  rw [← List.forall₂_eq_eq_eq, List.forall₂_map_left_iff]
  constructor
  · exact List.Forall₂.imp fun _ _ => Yields.eq
  · refine List.Forall₂.imp fun raw u h => ?_
    rw [← h]
    exact yields_formatted format raw

end Formatter

/-- A formatter never decides generation. With any formatter there are the faults that there are without one, and units
whenever there are some without one: one for each, in the same order, at the same path and overwritten alike, with the
formatted text where the formatter succeeds on it and the same text where it does not. -/
theorem generate_iff_passthrough (src : Source) (format : Formatter) :
    (∀ f, src.generate format = .error f ↔ src.generate .passthrough = .error f) ∧
    ∀ us, src.generate format = .ok us ↔
      ∃ raws, src.generate .passthrough = .ok raws ∧ List.Forall₂ format.Yields raws us := by
  rw [src.generate_passthrough]
  simp only [Formatter.forall₂_yields_iff, src.generate_eq format]
  constructor
  · intro f
    rw [bind_eq_error]
    refine or_iff_left ?_
    rintro ⟨raws, -, h⟩
    cases h
  · intro us
    rw [bind_eq_ok]
    simp

end SchemaTypings

import Mathlib.Data.List.Basic
import SchemaTypings.Unit

/-!
# Texts of units

The text of a unit has a line for each import, and behind them a paragraph for each declaration.

- `OutputUnit.Imports`: an import stands on a line of its own;
- `OutputUnit.Exports`: a declaration stands in a paragraph of its own, for other units to import.
-/

namespace SchemaTypings

open TypeScript

theorem unitPath_injective : Function.Injective unitPath := fun m n h => by
  have same := congrArg String.toList h
  simp only [unitPath, String.toList_append, List.append_cancel_right_eq] at same
  exact String.toList_inj.1 same

/-! ## Lines and paragraphs -/

theorem lines_append (ts ts' : List String) : lines (ts ++ ts') = lines ts ++ lines ts' := by
  rw [lines, List.map_append, String.join_append]
  rfl

theorem lines_cons (t : String) (ts : List String) : lines (t :: ts) = t ++ "\n" ++ lines ts := by
  rw [lines, List.map_cons, String.join_cons]
  rfl

theorem paragraphs_append (ss ts : List String) : paragraphs (ss ++ ts) = paragraphs ss ++ paragraphs ts := by
  unfold paragraphs
  rw [List.map_append, String.join_append]

theorem paragraphs_cons (t : String) (ts : List String) :
    paragraphs (t :: ts) = "\n" ++ t ++ "\n" ++ paragraphs ts := by
  unfold paragraphs
  rw [List.map_cons, String.join_cons]

namespace OutputUnit

variable {u : OutputUnit}

/-! ## Imports -/

/-- An import stands on a line of the unit. -/
def Imports (u : OutputUnit) (i : Import) : Prop :=
  ∃ before after, u.content = before ++ "\n" ++ i.text ++ "\n" ++ after

/-- Lines end a line, whether there are any or not. -/
theorem exists_before_newline (head : String) (ts : List String) :
    ∃ before, head ++ "\n" ++ lines ts = before ++ "\n" := by
  rcases List.eq_nil_or_concat' ts with rfl | ⟨ts, t, rfl⟩
  · exact ⟨head, String.append_empty⟩
  · refine ⟨head ++ "\n" ++ lines ts ++ t, ?_⟩
    rw [lines_append, lines_cons]
    simp only [lines, List.map_nil, String.join_nil, String.append_empty, String.append_assoc]

/-- A unit with the lines of imports behind a line of its own has each of them. -/
theorem imports_of_mem {i : Import} {is : List Import} (h : i ∈ is) (head tail : String)
    (text : u.content = head ++ "\n" ++ lines (is.map Import.text) ++ tail) : u.Imports i := by
  obtain ⟨front, back, rfl⟩ := List.append_of_mem h
  obtain ⟨before, line⟩ := exists_before_newline head (front.map Import.text)
  refine ⟨before, lines (back.map Import.text) ++ tail, ?_⟩
  rw [text, List.map_append, List.map_cons, lines_append, lines_cons, ← line]
  simp only [String.append_assoc]

/-! ## Exports -/

/-- The text of a unit has a declaration among its paragraphs, for others to import. -/
def Exports (u : OutputUnit) (d : Declaration) : Prop :=
  ∃ before after, u.content = before ++ "\n" ++ d.exported ++ "\n" ++ after

/-- A unit that ends in paragraphs exports the declarations among them. -/
theorem exports_of_mem {d : Declaration} {ps : List String} (h : d.exported ∈ ps) (head : String)
    (text : u.content = head ++ paragraphs ps) : u.Exports d := by
  obtain ⟨front, back, rfl⟩ := List.append_of_mem h
  refine ⟨head ++ paragraphs front, paragraphs back, ?_⟩
  rw [text, paragraphs_append, paragraphs_cons]
  simp only [String.append_assoc]

end OutputUnit

theorem EntityUnit.imports_of_mem {u : EntityUnit} {i : Import} (h : i ∈ u.imports) : u.output.Imports i := by
  let context := if u.declaresContext then "\ntype " ++ contextPlaceholder ++ " = any\n" else ""
  refine OutputUnit.imports_of_mem h doNotEdit (context ++ paragraphs (u.declarations.map Declaration.exported)) ?_
  exact String.append_assoc

theorem EntityUnit.exports_of_mem {u : EntityUnit} {d : Declaration} (h : d ∈ u.declarations) : u.output.Exports d :=
  OutputUnit.exports_of_mem (List.mem_map_of_mem h) _ rfl

theorem RootUnit.imports_of_mem {u : RootUnit} {i : Import} (h : i ∈ u.imports) : u.output.Imports i :=
  OutputUnit.imports_of_mem h editable _ rfl

theorem RootUnit.exports_map (u : RootUnit) : u.output.Exports (.interface u.map) :=
  OutputUnit.exports_of_mem List.mem_cons_self _ rfl

end SchemaTypings

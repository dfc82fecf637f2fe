import SchemaTypings.Proofs.FileTrees

/-!
# Paths below a directory

A relative path below a directory takes the steps to the directory (`stepsTo`) and then its own (`steps_join`).

- `IsPlain`: a relative path that never goes up, and so stays below its directory;
- `IsEntryName`: a name, which is a plain path of one step. Names that differ belong to places that differ
  (`aim_join_inj`);
- `Leads`: the path of a directory leads somewhere. Then what stands where a plain path below it aims is found
  (`pathExists_of_present`).
-/

namespace SchemaTypings

namespace FileTree

variable {t t' : FileTree} {output path : String}

/-! ## Steps of joined paths -/

/-- A slash cuts a path in two. -/
theorem segments_append_slash (ds : List Char) : ∀ cs : List Char,
    Path.segments (cs ++ '/' :: ds) = Path.segments cs ++ Path.segments ds
  | [] => by simp [Path.segments]
  | c :: cs => by
    have ih := segments_append_slash ds cs
    simp only [List.cons_append, Path.segments, ih]
    split_ifs
    · rfl
    · cases segments : Path.segments cs with
      | nil => exact absurd segments (segments_ne_nil cs)
      | cons s ss => rfl

/-- The steps to a directory, as a path below it takes them. -/
def stepsTo (output : String) : List String :=
  if output.isEmpty then [] else if output.toList.getLast? == some '/' then (steps output).dropLast else steps output

/-- A relative path below a directory is what leads into the directory, and the path. -/
theorem toList_join (output : String) (relative : Path.isAbsolute path = false) : ∃ into : List Char,
    (Path.join output path).toList = into ++ path.toList ∧
      (output = "" ∧ into = [] ∨ output ≠ "" ∧ ∃ cs, into = cs ++ ['/'] ∧
        (output.toList = cs ++ ['/'] ∨ output.toList = cs ∧ cs.getLast? ≠ some '/')) := by
  by_cases empty : output = ""
  · exact ⟨[], by simp [Path.join, relative, empty], .inl ⟨empty, rfl⟩⟩
  · by_cases slash : output.toList.getLast? = some '/'
    · have ends := List.dropLast_append_getLast? _ slash
      exact ⟨output.toList, by simp [Path.join, relative, slash], .inr ⟨empty, _, ends.symm, .inl ends.symm⟩⟩
    · exact ⟨output.toList ++ ['/'], by simp [Path.join, relative, slash, empty],
        .inr ⟨empty, _, rfl, .inr ⟨rfl, slash⟩⟩⟩

theorem steps_join (relative : Path.isAbsolute path = false) :
    steps (Path.join output path) = stepsTo output ++ steps path := by
  obtain ⟨into, text, ⟨rfl, rfl⟩ | ⟨nonempty, cs, rfl, same | ⟨same, noSlash⟩⟩⟩ := toList_join output relative
  · simp [steps, stepsTo, text]
  · simp [steps, stepsTo, text, nonempty, same, segments_append_slash, Path.segments]
  · simp [steps, stepsTo, text, nonempty, same, noSlash, segments_append_slash]

/-- Only an empty step at the end can be missing on the way into a directory. -/
theorem steps_eq_stepsTo (output : String) : steps output = stepsTo output ∨ steps output = stepsTo output ++ [""] := by
  unfold stepsTo
  split_ifs with empty slash
  · rw [String.isEmpty_iff.1 empty]
    exact .inr rfl
  · have ends := List.dropLast_append_getLast? _ (beq_iff_eq.1 slash)
    right
    unfold steps
    rw [← ends, segments_append_slash]
    simp [Path.segments]
  · exact .inl rfl

theorem start_join (relative : Path.isAbsolute path = false) : t.start (Path.join output path) = t.start output := by
  have same : Path.isAbsolute (Path.join output path) = Path.isAbsolute output := by
    obtain ⟨into, text, ⟨rfl, rfl⟩ | ⟨nonempty, cs, rfl, same | ⟨same, -⟩⟩⟩ :=
      toList_join output relative
    · simpa [Path.isAbsolute, text] using relative
    · cases cs <;> simp [Path.isAbsolute, text, same]
    · cases cs with
      | nil => exact absurd (String.toList_eq_nil_iff.1 same) nonempty
      | cons c cs => simp [Path.isAbsolute, text, same]
  unfold start
  rw [same]

/-- A path below a directory aims at what its steps name from the place of the directory. -/
theorem aim_join (t : FileTree) (relative : Path.isAbsolute path = false) :
    t.aim (Path.join output path) = (steps path).foldl advance (t.aim output) := by
  have into : (stepsTo output).foldl advance (t.start output) = t.aim output := by
    unfold aim
    rcases steps_eq_stepsTo output with same | same
    · rw [same]
    · rw [same, List.foldl_append]
      rfl
  unfold aim at *
  rw [steps_join relative, start_join relative, List.foldl_append, into]

/-! ## Plain paths and names -/

/-- A relative path that never goes up. -/
structure IsPlain (path : String) : Prop where
  relative : Path.isAbsolute path = false
  down : ".." ∉ steps path

instance (path : String) : Decidable (IsPlain path) :=
  decidable_of_iff (Path.isAbsolute path = false ∧ ".." ∉ steps path) ⟨fun h => ⟨h.1, h.2⟩, fun h => ⟨h.1, h.2⟩⟩

/-- A name that leads to something of its own below a directory. -/
structure IsEntryName (n : String) : Prop where
  unbroken : '/' ∉ n.toList
  notIdle : isIdle n = false
  notUp : n ≠ ".."

theorem segments_of_unbroken : ∀ {cs : List Char}, '/' ∉ cs → Path.segments cs = [cs]
  | [], _ => rfl
  | c :: cs, h => by
    rw [List.mem_cons, not_or] at h
    obtain ⟨hc, hcs⟩ := h
    rw [Path.segments, if_neg (Ne.symm hc), segments_of_unbroken hcs]

theorem IsEntryName.steps {n : String} (h : IsEntryName n) : steps n = [n] := by
  simp [FileTree.steps, segments_of_unbroken h.unbroken]

theorem IsEntryName.plain {n : String} (h : IsEntryName n) : IsPlain n := by
  refine ⟨?_, by simpa [h.steps] using Ne.symm h.notUp⟩
  unfold Path.isAbsolute
  cases first : n.toList with
  | nil => rfl
  | cons c cs =>
    have := h.unbroken
    rw [first, List.mem_cons, not_or] at this
    simpa using Ne.symm this.1

/-- Below a directory, names that differ belong to places that differ. -/
theorem aim_join_inj {m n : String} (hm : IsEntryName m) (hn : IsEntryName n) :
    t.aim (Path.join output m) = t.aim (Path.join output n) ↔ m = n := by
  rw [aim_join t hm.plain.relative, aim_join t hn.plain.relative, hm.steps, hn.steps]
  simp [advance, hm.notIdle, hm.notUp, hn.notIdle, hn.notUp]

/-! ## Directories whose path leads somewhere -/

/-- The path of a directory leads somewhere, as far as paths below it ask. -/
def Leads (t : FileTree) (output : String) : Prop := ∃ q, t.follow (t.start output) (stepsTo output) = .ok q

theorem leads_of_locate {p : Place} (relative : Path.isAbsolute path = false)
    (located : t.locate (Path.join output path) = .ok p) : t.Leads output := by
  have follows := (locate_eq_ok.1 located).2
  rw [steps_join relative, start_join relative, follow_append] at follows
  obtain ⟨q, into, -⟩ := bind_eq_ok.1 follows
  exact ⟨q, into⟩

theorem leads_of_pathExists (found : t.pathExists output = true) : t.Leads output := by
  have follows := (locate_eq_ok.1 (pathExists_eq_true.1 found)).2
  rcases steps_eq_stepsTo output with same | same
  · rw [same] at follows
    exact ⟨_, follows⟩
  · rw [same, follow_append] at follows
    obtain ⟨q, into, -⟩ := bind_eq_ok.1 follows
    exact ⟨q, into⟩

/-- Something stands where a plain path leads. -/
theorem present_of_locate_join {p : Place} (plain : IsPlain path) (located : t.locate (Path.join output path) = .ok p) :
    (t.node? p).isSome := by
  have follows := (locate_eq_ok.1 located).2
  have ends := List.dropLast_append_getLast (steps_ne_nil path)
  rw [steps_join plain.relative, ← ends, ← List.append_assoc] at follows
  exact present_of_follow (fun up => plain.down (up ▸ List.getLast_mem _)) follows

/-- What stands where a plain path below a directory aims is found, if files can be written there, and if the path of
the directory leads somewhere or never goes up. -/
theorem pathExists_of_present {t₁ t₂ : FileTree} {text : String} (tree : t.IsTree) (plain : IsPlain path)
    (reaches : t.Leads output ∨ ".." ∉ steps output) (write : t₁.write (Path.join output path) text = .ok t₂)
    (present : (t.node? (t.aim (Path.join output path))).isSome) : t.pathExists (Path.join output path) = true := by
  rw [pathExists_eq_true]
  -- follow the path of the directory first, or go down all the way from the start
  rcases reaches with ⟨q, into⟩ | down
  · rw [← start_join plain.relative] at into
    exact locate_of_present tree write (steps_join plain.relative) into plain.down (steps_ne_nil path) present
  · refine locate_of_present tree write (List.nil_append _).symm rfl ?_ (steps_ne_nil _) present
    rw [steps_join plain.relative, List.mem_append, not_or]
    refine ⟨fun up => down ?_, plain.down⟩
    rcases steps_eq_stepsTo output with same | same
    · rwa [same]
    · rw [same]
      exact List.mem_append_left _ up

end FileTree

end SchemaTypings

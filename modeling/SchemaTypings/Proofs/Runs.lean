import SchemaTypings.Proofs.Places
import SchemaTypings.Proofs.Writing
import SchemaTypings.Run

/-!
# What a run of the command leaves behind

A run reads the configuration and the schema, makes all units, and only then writes. So it ends before it writes and
leaves the files as they were, or what it leaves is what writing all units leaves (`runCommand_effect`).

- `exists_parent_of_read`: a file lies in a directory, to which the paths in a configuration file are relative;
- `Configured`, `Described`, `Prepared`: how far a run has come, in terms of the files that it reads;
- `Stops`: the stages at which a run can end before it writes, with their faults;
- `prepare_cases`: preparing only reads. It ends at one of the stages, or has the units of the schema.
-/

namespace SchemaTypings

namespace FileTree

variable {t : FileTree} {path : String}

/-! ## The directory of a file -/

theorem ancestorsOf_eq_nil {start : List Char} : ∀ {segments : List (List Char)},
    Path.ancestorsOf start segments = [] → start ≠ ['.'] ∧ ∀ s ∈ segments, Path.isTrivial s = true
  | [], h => by
    unfold Path.ancestorsOf at h
    split_ifs at h with dot
    exact ⟨dot, nofun⟩
  | s :: above, h => by
    unfold Path.ancestorsOf at h
    split_ifs at h with trivial
    obtain ⟨dot, rest⟩ := ancestorsOf_eq_nil h
    exact ⟨dot, List.forall_mem_cons.2 ⟨trivial, rest⟩⟩

/-- A path without any segment that leads somewhere is empty, or starts with a slash or with a full stop as a
segment. -/
theorem start_of_trivial : ∀ {cs : List Char}, (∀ s ∈ Path.segments cs, Path.isTrivial s = true) →
    cs = [] ∨ (∃ rest, cs = '/' :: rest) ∨ cs = ['.'] ∨ ∃ rest, cs = '.' :: '/' :: rest
  | [], _ => .inl rfl
  | c :: cs, trivial => by
    right
    by_cases slash : c = '/'
    · exact .inl ⟨cs, by rw [slash]⟩
    · right
      cases rest : Path.segments cs with
      | nil => exact absurd rest (segments_ne_nil cs)
      | cons s ss =>
        have first : Path.isTrivial (c :: s) = true := trivial _ (by simp [Path.segments, slash, rest])
        obtain ⟨rfl, rfl⟩ : c = '.' ∧ s = [] := by simpa [Path.isTrivial] using first
        cases cs with
        | nil => exact .inl rfl
        | cons d ds =>
          right
          by_cases slash' : d = '/'
          · exact ⟨ds, by rw [slash']⟩
          · rw [Path.segments, if_neg slash'] at rest
            split at rest <;> cases rest

/-- Only the root and the empty path have no directory above them. -/
theorem trivial_of_parent?_eq_none (h : Path.parent? path = none) :
    path = "" ∨ Path.isAbsolute path = true ∧ ∀ s ∈ Path.segments path.toList, Path.isTrivial s = true := by
  unfold Path.parent? Path.ancestors at h
  rw [List.head?_eq_none_iff] at h
  have none := ancestorsOf_eq_nil h
  simp only [List.mem_reverse] at none
  unfold Path.isAbsolute
  rw [← String.toList_eq_nil_iff]
  generalize path.toList = cs at none ⊢
  split at none
  · refine .inr ⟨rfl, ?_⟩
    rw [Path.segments, if_pos rfl]
    exact List.forall_mem_cons.2 ⟨rfl, none.2⟩
  · exact absurd rfl none.1
  · exact absurd rfl none.1
  · rename_i noSlash noDot noDotSlash
    rcases start_of_trivial none.2 with empty | ⟨rest, slash⟩ | dot | ⟨rest, dotSlash⟩
    · exact .inl empty
    · exact absurd slash (noSlash rest)
    · exact absurd dot noDot
    · exact absurd dotSlash (noDotSlash rest)

theorem isIdle_of_isTrivial {s : List Char} (h : Path.isTrivial s = true) : isIdle (String.ofList s) = true := by
  simp only [Path.isTrivial, Bool.or_eq_true, List.isEmpty_iff, beq_iff_eq] at h
  rcases h with rfl | rfl <;> decide

/-- Idle steps stay where they are. -/
theorem foldl_advance_of_idle {xs : List String} {p : Place} (idle : ∀ x ∈ xs, isIdle x = true) :
    xs.foldl advance p = p := by
  induction xs with
  | nil => rfl
  | cons x xs ih =>
    obtain ⟨here, rest⟩ := List.forall_mem_cons.1 idle
    rw [List.foldl_cons, advance, if_pos here, ih rest]

/-- The root is no file, so a file has a directory above it. -/
theorem exists_parent_of_read {text : String} (h : t.read path = some text) :
    ∃ directory, Path.parent? path = some directory := by
  cases parent : Path.parent? path with
  | some directory => exact ⟨directory, rfl⟩
  | none =>
    exfalso
    obtain ⟨place, located, file⟩ := read_eq_some.1 h
    obtain rfl | ⟨absolute, trivial⟩ := trivial_of_parent?_eq_none parent
    · cases (locate_eq_ok.1 located).1
    · have idle : ∀ x ∈ steps path, isIdle x = true :=
        List.forall_mem_map.2 fun s hs => isIdle_of_isTrivial (trivial s hs)
      have root : t.aim path = [] := by
        unfold aim start
        rw [absolute, if_pos rfl, foldl_advance_of_idle idle]
      rw [aim_of_locate located, root] at file
      cases file

end FileTree

/-! ## How far a run comes -/

/-- The formatter of a run with given options. -/
def Options.formatter (options : Options) (format : Formatter) : Formatter :=
  if options.noFormat then .passthrough else format

/-- A configuration with paths as they are seen from a directory. -/
def ProjectConfig.seenFrom (c : ProjectConfig) (directory : String) : ProjectConfig :=
  { c with schema := Path.join directory c.schema, output := Path.join directory c.output }

/-- What a run leaves besides files. Only a fault is reported. -/
def Outcome.ofResult : Except RunFault Summary → Outcome
  | .ok _ => ⟨0, "", none, none⟩
  | .error f => ⟨f.exitCode, "", some f, none⟩

/-- What is generated from a schema under a configuration. -/
def ProjectConfig.sourceOf (c : ProjectConfig) (schema : Schema) : Source := ⟨schema, c.models, c.context, c.switches⟩

variable {t : FileTree} {format : Formatter} {options : Options}

/-- The configuration file of a run is there and in order. It lies in the given directory. -/
structure Configured (t : FileTree) (options : Options) (directory : String) (c : ProjectConfig) : Prop where
  parent : Path.parent? options.config = some directory
  reads : ∃ text, t.read options.config = some text ∧ Toml.parse? text >>= ProjectConfig.ofSetting? = some c

/-- The configuration of a run and the schema that it names, seen from the directory of the configuration, are in
order. -/
structure Described (t : FileTree) (options : Options) (directory : String) (c : ProjectConfig) (schema : Schema) :
    Prop extends Configured t options directory c where
  defines : ∃ text document, t.read (Path.join directory c.schema) = some text ∧
    Sdl.Document.parse text = .ok document ∧ document.schema = .ok schema

/-- A run has all the units that it is to write, and the directory to write them to. -/
def Prepared (t : FileTree) (format : Formatter) (options : Options) (output : String) (us : List OutputUnit) : Prop :=
  ∃ directory c schema, Described t options directory c schema ∧
    (c.sourceOf schema).generate (options.formatter format) = .ok us ∧ output = Path.join directory c.output

/-- The stages at which a run can end before it writes, with the faults that it ends with. -/
inductive Stops (t : FileTree) (format : Formatter) (options : Options) : RunFault → Prop
  | readingConfiguration (missing : t.read options.config = none) :
    Stops t format options (.readingConfiguration options.config)
  | parsingConfiguration {text} (found : t.read options.config = some text)
    (malformed : Toml.parse? text >>= ProjectConfig.ofSetting? = none) :
    Stops t format options (.parsingConfiguration options.config)
  | readingSchema {directory c} (configured : Configured t options directory c)
    (missing : t.read (Path.join directory c.schema) = none) :
    Stops t format options (.readingSchema (Path.join directory c.schema))
  | parsingSchema {directory c text f} (configured : Configured t options directory c)
    (found : t.read (Path.join directory c.schema) = some text) (malformed : Sdl.Document.parse text = .error f) :
    Stops t format options (.ofText f)
  | resolving {directory c text document f} (configured : Configured t options directory c)
    (found : t.read (Path.join directory c.schema) = some text) (parsed : Sdl.Document.parse text = .ok document)
    (refused : document.schema = .error f) : Stops t format options (.schema f)
  | generating {directory c schema f} (described : Described t options directory c schema)
    (refused : (c.sourceOf schema).generate (options.formatter format) = .error f) : Stops t format options (.schema f)

namespace FileTree

/-! ## Preparation -/

/-- Reading a file leaves the tree alone. -/
theorem run_read {α : Type} (t : FileTree) (path : String)
    (k : Option String → ExceptT RunFault (StateM FileTree) α) :
    ((liftM (files.read path) : ExceptT RunFault (StateM FileTree) (Option String)) >>= k).run.run t =
      (k (t.read path)).run.run t := by
  rw [run_bind, run_lift]
  rfl

/-- Nor does a step that depends on no files change it. -/
theorem run_liftExcept {α β : Type} (t : FileTree) (e : Except RunFault α)
    (k : α → ExceptT RunFault (StateM FileTree) β) :
    (prepare.liftExcept e >>= k : ExceptT RunFault (StateM FileTree) β).run.run t =
      match e with
      | .ok a => (k a).run.run t
      | .error f => (.error f, t) := by
  rw [run_bind]
  cases e <;> rfl

theorem load_cases (t : FileTree) (format : Formatter) (options : Options) :
    (∃ f, Stops t format options f ∧ (ProjectConfig.load files options.config).run.run t = (.error f, t)) ∨
      ∃ directory c, Configured t options directory c ∧
        (ProjectConfig.load files options.config).run.run t = (.ok (c.seenFrom directory), t) := by
  unfold ProjectConfig.load
  rw [run_read]
  cases found : t.read options.config with
  | none => exact .inl ⟨_, .readingConfiguration found, rfl⟩
  | some text =>
    cases parsed : Toml.parse? text >>= ProjectConfig.ofSetting? with
    | none =>
      refine .inl ⟨_, .parsingConfiguration found parsed, ?_⟩
      simp only [parsed]
      rfl
    | some c =>
      obtain ⟨directory, parent⟩ := exists_parent_of_read found
      refine .inr ⟨directory, c, ⟨parent, text, found, parsed⟩, ?_⟩
      simp only [parsed, ProjectConfig.relativeTo, parent]
      rfl

/-- A schema text defines a schema, or the run ends at its fault. -/
theorem source_cases {directory text : String} {c : ProjectConfig} (configured : Configured t options directory c)
    (found : t.read (Path.join directory c.schema) = some text) :
    (∃ f, Stops t format options f ∧ (c.seenFrom directory).source text = .error f) ∨
      ∃ schema, Described t options directory c schema ∧
        (c.seenFrom directory).source text = .ok (c.sourceOf schema) := by
  unfold ProjectConfig.source
  cases parsed : Sdl.Document.parse text with
  | error f => exact .inl ⟨_, .parsingSchema configured found parsed, rfl⟩
  | ok document =>
    simp only [Except.mapError, ok_bind]
    cases resolved : document.schema with
    | error f => exact .inl ⟨_, .resolving configured found parsed resolved, rfl⟩
    | ok schema => exact .inr ⟨schema, ⟨configured, text, document, found, parsed, resolved⟩, rfl⟩

/-- Preparing a run leaves the tree alone. It ends at one of the stages before writing, or has all units. -/
theorem prepare_cases (t : FileTree) (format : Formatter) (options : Options) :
    (∃ f, Stops t format options f ∧ (prepare files format options).run.run t = (.error f, t)) ∨
      ∃ output us, Prepared t format options output us ∧
        (prepare files format options).run.run t = (.ok (output, us), t) := by
  unfold prepare
  rw [run_bind]
  rcases load_cases t format options with ⟨f, stops, ends⟩ | ⟨directory, c, configured, loads⟩
  · exact .inl ⟨f, stops, by rw [ends]⟩
  rw [loads]
  dsimp only
  rw [run_read]
  cases found : t.read (c.seenFrom directory).schema with
  | none => exact .inl ⟨_, .readingSchema configured found, rfl⟩
  | some text =>
    dsimp only
    rw [run_liftExcept]
    rcases source_cases configured found with ⟨f, stops, ends⟩ | ⟨schema, described, source⟩
    · exact .inl ⟨f, stops, by rw [ends]⟩
    rw [source]
    dsimp only
    rw [run_liftExcept]
    cases generated : (c.sourceOf schema).generate (options.formatter format) with
    | error f =>
      refine .inl ⟨_, .generating described generated, ?_⟩
      unfold Options.formatter at generated
      rw [generated]
      rfl
    | ok us =>
      refine .inr ⟨_, us, ⟨directory, c, schema, described, generated, rfl⟩, ?_⟩
      unfold Options.formatter at generated
      rw [generated]
      rfl

/-! ## Runs -/

/-- What a run with options comes to is what the command leaves. -/
theorem run_runCommand {env : Environment} {onTerminal : Bool} {argv : List String}
    (arguments : Options.ofArguments env argv = .ok options) {result : Except RunFault Summary} {t' : FileTree}
    (run : (runWith files format options).run.run t = (result, t')) :
    (runCommand files format env onTerminal argv).run t = (.ofResult result, t') := by
  unfold runCommand
  rw [arguments]
  dsimp only
  rw [StateT.run_bind, run]
  cases result <;> rfl

theorem run_runWith_of_error {f : RunFault} (ends : (prepare files format options).run.run t = (.error f, t)) :
    (runWith files format options).run.run t = (.error f, t) := by
  unfold runWith
  rw [run_bind, ends]

theorem run_runWith_of_ok {output : String} {us : List OutputUnit}
    (prepares : (prepare files format options).run.run t = (.ok (output, us), t)) :
    (runWith files format options).run.run t =
      ((t.writeUnits output us).1.mapError .writing, (t.writeUnits output us).2) := by
  unfold runWith
  rw [run_bind, prepares]
  rfl

/-- A run of the command ends before it writes, without any effect on the files, or its effect is that of writing all
units of the schema below the output directory. -/
theorem runCommand_effect (t : FileTree) (format : Formatter) (env : Environment) (onTerminal : Bool)
    (argv : List String) :
    (∃ h, Options.ofArguments env argv = .error h ∧
      (runCommand files format env onTerminal argv).run t = (.ofHalt env onTerminal h, t)) ∨
    ∃ options, Options.ofArguments env argv = .ok options ∧
      ((∃ f, Stops t format options f ∧
        (runCommand files format env onTerminal argv).run t = (.ofResult (.error f), t)) ∨
      ∃ output us, Prepared t format options output us ∧
        (runCommand files format env onTerminal argv).run t =
          (.ofResult ((t.writeUnits output us).1.mapError .writing), (t.writeUnits output us).2)) := by
  cases arguments : Options.ofArguments env argv with
  | error h =>
    refine .inl ⟨h, rfl, ?_⟩
    unfold runCommand
    rw [arguments]
    rfl
  | ok options =>
    refine .inr ⟨options, rfl, ?_⟩
    rcases prepare_cases t format options with ⟨f, stops, ends⟩ | ⟨output, us, prepared, prepares⟩
    · exact .inl ⟨f, stops, run_runCommand arguments (run_runWith_of_error ends)⟩
    · exact .inr ⟨output, us, prepared, run_runCommand arguments (run_runWith_of_ok prepares)⟩

end FileTree

end SchemaTypings

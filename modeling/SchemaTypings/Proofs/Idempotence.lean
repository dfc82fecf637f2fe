import SchemaTypings.Proofs.Preservation
import SchemaTypings.Proofs.Tables

/-!
# Runs over units that are written already

A second run over the units of a run that went well changes nothing (`writeUnits_idempotent`). On its way it is not the
same: units that may carry edits are left alone even where the first run wrote them, and a file with several forced
units takes on the content of each of them once more.

- `InPlace`: a unit has had its turn. Then another turn makes no directory and only puts the content of a forced unit
  where it aims (`turn_of_inPlace`), and so do the turns of a run (`writeUnits_of_inPlace`);
- `inPlace_of_writeUnits`: a run that goes well puts every unit in place;
- `node_of_replacement`: after a run that goes well the last forced unit that aims at a place has its content there, so
  that putting all contents once more changes nothing (`putAll_of_writeUnits`).
-/

namespace SchemaTypings

namespace FileTree

variable {t t' : FileTree} {output path : String} {us : List OutputUnit} {u : OutputUnit}

/-! ## Writing below a directory -/

/-- Makes the directory that is to hold what a path leads to. -/
def makeParent (t : FileTree) (path : String) : Bool × FileTree :=
  match Path.parent? path with
  | some directory => t.createDirectories directory
  | none => (true, t)

/-- Writing a file after its directory goes well if both steps do. -/
theorem writeBelow_eq_ok {text : String} : (files.writeBelow path text).run.run t = (.ok (), t') ↔
    ∃ t₁, t.makeParent path = (true, t₁) ∧ t₁.write path text = .ok t' := by
  have write : ∀ t₁ : FileTree, (do unless ← files.write path text do throw (.writing path) :
      ExceptT WriteFault (StateM FileTree) Unit).run.run t₁ = (.ok (), t') ↔ t₁.write path text = .ok t' := by
    intro t₁
    rw [run_write]
    cases t₁.write path text with
    | error => exact ⟨fun h => (by cases h), fun h => (by cases h)⟩
    | ok t₂ => exact ⟨fun h => (by cases h; rfl), fun h => (by cases h; rfl)⟩
  unfold Files.writeBelow makeParent
  cases Path.parent? path with
  | none => simpa using write t
  | some directory =>
    simp only [run_bind, run_lift]
    have asked : (files.createDirectories directory).run t = t.createDirectories directory := rfl
    rw [asked]
    obtain ⟨_ | _, t₁⟩ := t.createDirectories directory
    · constructor
      · intro h
        cases h
      · rintro ⟨t₂, made, -⟩
        cases made
    · simpa using write t₁

/-! ## Units in place -/

/-- A unit has had its turn: its path leads to the place that it aims at, and if it is forced, there is a file that can
be written to without making a directory. -/
structure InPlace (t : FileTree) (output : String) (u : OutputUnit) : Prop where
  leads : t.locate (Path.join output u.path) = .ok (t.site output u)
  file : u.forceOverwrite = true → ∃ text, t.node? (t.site output u) = some (.file text)
  parent : u.forceOverwrite = true → t.makeParent (Path.join output u.path) = (true, t)
  entry : u.forceOverwrite = true → ∃ above name q, Entry t (Path.join output u.path) above name q

theorem Grows.entry (h : Grows t t') {above : List String} {name : String} {q : Place}
    (e : Entry t path above name q) : Entry t' path above name q :=
  { e with leads := h.start path ▸ h.follow e.leads, directory := h.directory q e.directory }

/-- Where a directory was made, or was there, it need not be made again when the tree has grown. -/
theorem Grows.makeParent {t₀ : FileTree} (h : Grows t t') (made : t₀.makeParent path = (true, t)) :
    t'.makeParent path = (true, t') := by
  unfold FileTree.makeParent at made ⊢
  cases parent : Path.parent? path with
  | none => rfl
  | some directory =>
    rw [parent] at made
    exact createDirectories_of_isDirectory ((isDirectory_of_createDirectories made).imp_right h.isDirectory)

/-- A unit stays in place in a tree that grows without turning files into directories. -/
theorem InPlace.mono (h : InPlace t output u) (grows : Grows t t')
    (files : ∀ p text, t.node? p = some (.file text) → ∃ text', t'.node? p = some (.file text')) :
    InPlace t' output u where
  leads := by
    rw [grows.site]
    exact grows.locate h.leads
  file forced := by
    obtain ⟨text, file⟩ := h.file forced
    rw [grows.site]
    exact files _ text file
  parent forced := grows.makeParent (h.parent forced)
  entry forced := by
    obtain ⟨above, name, q, entry⟩ := h.entry forced
    exact ⟨above, name, q, grows.entry entry⟩

/-- After its turn a unit is in place. -/
theorem inPlace_of_turn (h : t.turn output u = (.ok (), t')) : InPlace t' output u := by
  have turn := turn_of_ok h
  have leads : t'.locate (Path.join output u.path) = .ok (t'.site output u) := turn.grows.site output u ▸ turn.leads
  cases forced : u.forceOverwrite with
  | false => exact ⟨leads, by simp [forced], by simp [forced], by simp [forced]⟩
  | true =>
    have wanted : t.keeps output u = false := by simp [keeps, forced]
    unfold FileTree.turn at h
    rw [wanted, if_neg (by decide)] at h
    obtain ⟨t₁, made, write⟩ := writeBelow_eq_ok.1 h
    obtain ⟨above, name, q, entry, -, -⟩ := write_eq_ok.1 write
    have grows := (writes_of_write write).grows
    have file : t'.node? (t'.site output u) = some (.file u.content) := by
      rw [turn.grows.site]
      exact turn.given wanted
    exact ⟨leads, fun _ => ⟨_, file⟩, fun _ => grows.makeParent made, fun _ => ⟨above, name, q, grows.entry entry⟩⟩

/-- A run that goes well puts every unit in place. -/
theorem inPlace_of_writeUnits {s : Summary} (run : t.writeUnits output us = (.ok s, t')) :
    ∀ u ∈ us, InPlace t' output u := by
  induction us generalizing t s with
  | nil => exact nofun
  | cons u us ih =>
    obtain ⟨t₁, s', turn, rest, -⟩ := writeUnits_cons_eq_ok.1 run
    refine List.forall_mem_cons.2 ⟨?_, ih rest⟩
    refine (inPlace_of_turn turn).mono (grows_of_writeUnits rest) fun p text file => ?_
    have kept : ∃ text', (t₁.writeUnits output us).2.node? p = some (.file text') := exists_file_of_writeUnits file
    rwa [rest] at kept

/-! ## Runs over units in place -/

/-- What a unit that is in place puts into a tree: its content if it is forced, and nothing else. -/
def renewal (t : FileTree) (output : String) (u : OutputUnit) : Option (Place × FileNode) :=
  if u.forceOverwrite then some (t.site output u, .file u.content) else none

theorem renewal_of_forced (forced : u.forceOverwrite = true) :
    t.renewal output u = some (t.site output u, .file u.content) := if_pos forced

theorem renewal_of_unforced (unforced : u.forceOverwrite = false) : t.renewal output u = none := by
  simp [renewal, unforced]

/-- Puts nodes at places, one after another. -/
def putAll (t : FileTree) (es : List (Place × FileNode)) : FileTree := es.foldl (fun t e => t.put e.1 e.2) t

/-- Another turn of a unit in place. -/
theorem turn_of_inPlace (h : InPlace t output u) :
    t.turn output u = (.ok (), t.putAll (t.renewal output u).toList) ∧ t.keeps output u = !u.forceOverwrite := by
  unfold turn keeps
  cases forced : u.forceOverwrite with
  | false =>
    rw [pathExists_eq_true.2 h.leads, renewal_of_unforced forced]
    exact ⟨rfl, rfl⟩
  | true =>
    obtain ⟨text, file⟩ := h.file forced
    obtain ⟨above, name, q, entry⟩ := h.entry forced
    rw [renewal_of_forced forced]
    refine ⟨writeBelow_eq_ok.2 ⟨t, h.parent forced, write_eq_ok.2 ⟨above, name, q, entry, ?_, rfl⟩⟩, rfl⟩
    intro directory
    cases directory.symm.trans file

/-- Putting the contents of forced units in place of files leaves other units in place. -/
theorem InPlace.putAll (h : InPlace t output u) {v : OutputUnit} (hv : InPlace t output v) :
    InPlace (t.putAll (t.renewal output u).toList) output v := by
  have turn := turn_of_ok (turn_of_inPlace h).1
  refine hv.mono turn.grows fun p text file => ?_
  have kept : ∃ text', (t.writeUnits output [u]).2.node? p = some (.file text') := exists_file_of_writeUnits file
  rwa [writeUnits_cons_of_ok [] (turn_of_inPlace h).1] at kept

/-- A run over units in place puts the contents of the forced ones where they aim, and leaves the others alone. -/
theorem writeUnits_of_inPlace (h : ∀ u ∈ us, InPlace t output u) : t.writeUnits output us =
    (.ok ⟨(us.filter (·.forceOverwrite)).map fun u => Path.join output u.path,
      (us.filter (!·.forceOverwrite)).map fun u => Path.join output u.path⟩,
      t.putAll (us.filterMap (t.renewal output))) := by
  induction us generalizing t with
  | nil => rfl
  | cons u us ih =>
    obtain ⟨hu, hus⟩ := List.forall_mem_cons.1 h
    obtain ⟨turn, keeps⟩ := turn_of_inPlace hu
    rw [writeUnits_cons_of_ok us turn, ih fun v hv => hu.putAll (hus v hv), keeps]
    -- the turn changes nodes only, so that the others aim where they aimed before
    cases forced : u.forceOverwrite with
    | false =>
      rw [renewal_of_unforced forced, List.filterMap_cons_none (renewal_of_unforced forced),
        List.filter_cons_of_neg (by simp [forced]), List.filter_cons_of_pos (by simp [forced])]
      rfl
    | true =>
      rw [renewal_of_forced forced, List.filterMap_cons_some (renewal_of_forced forced),
        List.filter_cons_of_pos forced, List.filter_cons_of_neg (by simp [forced])]
      rfl

/-! ## Contents at the end of a run -/

/-- After a run that goes well the last forced unit that aims at a place has its content there. -/
theorem node_of_replacement {s : Summary} {p : Place} {node : FileNode} (tree : t.IsTree)
    (plain : ∀ u ∈ us, IsPlain u.path) (run : t.writeUnits output us = (.ok s, t'))
    (replaced : t.replacement output us p = some node) : t'.node? p = some node := by
  induction us generalizing t s with
  | nil => cases replaced
  | cons u us ih =>
    obtain ⟨t₁, s', h, rest, -⟩ := writeUnits_cons_eq_ok.1 run
    have turn := turn_of_ok h
    have plain' : ∀ v ∈ us, IsPlain v.path := fun v hv => plain v (List.mem_cons_of_mem _ hv)
    rw [replacement_cons, ← replacement_congr (turn.grows.site output)] at replaced
    cases later : t₁.replacement output us p with
    | some x =>
      rw [later, Option.some_or] at replaced
      exact ih (turn.tree tree) plain' rest (later.trans replaced)
    | none =>
      -- no later unit is meant to replace the content of the first one, so it stays
      rw [later, Option.none_or] at replaced
      split_ifs at replaced with here
      obtain ⟨forced, aims⟩ := Bool.and_eq_true_iff.1 here
      rw [beq_iff_eq] at aims
      have given : t₁.node? p = some node := by
        rw [← replaced, ← aims]
        exact turn.given (by simp [keeps, forced])
      have kept := node_of_writeUnits (turn.tree tree) plain' (not_clobbers_of_turn h tree plain)
        (replacement_eq_none.1 later) (Option.isSome_of_eq_some given)
      rw [rest] at kept
      exact kept.trans given

/-- The contents of forced units, as a table in which the last one for a place counts. -/
theorem get?_ofLast_renewals (t : FileTree) (output : String) (us : List OutputUnit) (p : Place) :
    (OrderedMap.ofLast (us.filterMap (t.renewal output))).get? p = t.replacement output us p := by
  induction us with
  | nil => rfl
  | cons u us ih =>
    rw [replacement_cons, ← ih]
    cases forced : u.forceOverwrite with
    | false =>
      rw [List.filterMap_cons_none (renewal_of_unforced forced)]
      simp
    | true =>
      rw [List.filterMap_cons_some (renewal_of_forced forced), OrderedMap.get?_ofLast_cons]
      congr 1
      simp only [Bool.true_and, beq_iff_eq]
      exact if_congr eq_comm rfl rfl

theorem nodes_putAll (t : FileTree) (es : List (Place × FileNode)) :
    t.putAll es = { t with nodes := es.foldl (fun m e => m.insert e.1 e.2) t.nodes } := by
  unfold putAll
  induction es generalizing t with
  | nil => rfl
  | cons e es ih => exact ih _

/-- After a run that goes well nothing changes when the contents of all forced units are put in place once more. -/
theorem putAll_of_writeUnits {s : Summary} (tree : t.IsTree) (plain : ∀ u ∈ us, IsPlain u.path)
    (run : t.writeUnits output us = (.ok s, t')) : t'.putAll (us.filterMap (t'.renewal output)) = t' := by
  rw [nodes_putAll, OrderedMap.foldl_insert_eq_self]
  intro p node last
  rw [get?_ofLast_renewals, replacement_congr ((grows_of_writeUnits run).site output)] at last
  have there := node_of_replacement tree plain run last
  unfold node? at there
  split_ifs at there with root
  · -- a unit has a file, and no file is at the root
    cases there
    obtain ⟨v, -, absurd⟩ := Option.map_eq_some_iff.1 last
    cases absurd
  · exact there

/-! ## Second runs -/

/-- A second run over the units of a run that goes well succeeds as well. It leaves the tree exactly as the first run
has left it, and reports the forced units as written and the others as skipped. -/
theorem writeUnits_idempotent {s : Summary} (tree : t.IsTree) (plain : ∀ u ∈ us, IsPlain u.path)
    (run : t.writeUnits output us = (.ok s, t')) : t'.writeUnits output us =
      (.ok ⟨(us.filter (·.forceOverwrite)).map fun u => Path.join output u.path,
        (us.filter (!·.forceOverwrite)).map fun u => Path.join output u.path⟩, t') := by
  rw [writeUnits_of_inPlace (inPlace_of_writeUnits run), putAll_of_writeUnits tree plain run]

/-- Writing the draft once leaves the content of the last unit for `Query.ts`, and so does writing it again. -/
theorem writeUnits_idempotent_draft : draftTree.IsTree ∧ (∀ u ∈ draftUnits, IsPlain u.path) ∧
    ∃ drafted : FileTree, draftTree.writeUnits "generated" draftUnits =
      (.ok ⟨["generated/Query.ts", "generated/parts/Author.ts", "generated/Query.ts"], ["generated/index.ts"]⟩,
        drafted) ∧
      drafted.node? ["generated", "Query.ts"] = some (.file "second") ∧
      drafted.writeUnits "generated" draftUnits =
        (.ok ⟨["generated/Query.ts", "generated/Query.ts"], ["generated/index.ts", "generated/parts/Author.ts"]⟩,
          drafted) := by
  have tree : draftTree.IsTree := by decide +kernel
  have plain : ∀ u ∈ draftUnits, IsPlain u.path := by decide +kernel
  have run : draftTree.writeUnits "generated" draftUnits =
      (.ok ⟨["generated/Query.ts", "generated/parts/Author.ts", "generated/Query.ts"], ["generated/index.ts"]⟩,
        (draftTree.writeUnits "generated" draftUnits).2) := by decide +kernel
  exact ⟨tree, plain, _, run, by decide +kernel, writeUnits_idempotent tree plain run⟩

end FileTree

end SchemaTypings

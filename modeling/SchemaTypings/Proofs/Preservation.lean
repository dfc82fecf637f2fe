import SchemaTypings.Proofs.Writing

/-!
# What a run preserves and what it reports

A run over units with plain paths leaves alone what it must, and says what it did (`Faithful`), except in one case
(`Clobbers`): the path of the output directory goes up through something that is missing. Then a file may stand where
the first unit aims although the path of the unit does not lead there yet. The unit finds nothing, makes what is missing
on the way, and replaces the file, be it readable or not.

- `tells_of_writeUnits`: the summary of a run without failure;
- `node_of_writeUnits`, `stays_or_file_of_writeUnits`: places through a run that may fail;
- `node_at_end`: places after a run without failure;
- `faithful_iff`: a run is faithful unless it clobbers.
-/

namespace SchemaTypings

namespace FileTree

variable {t t' : FileTree} {output : String}

/-! ## Reports -/

/-- The units of a run with the trees that they find when their turns come: what the run over the units before them has
left. -/
def turns (t : FileTree) (output : String) (us : List OutputUnit) : List (FileTree × OutputUnit) :=
  us.zipIdx.map fun (u, i) => ((t.writeUnits output (us.take i)).2, u)

theorem map_snd_turns (t : FileTree) (output : String) (us : List OutputUnit) :
    (t.turns output us).map Prod.snd = us := by
  unfold turns
  rw [List.map_map]
  exact List.zipIdx_map_fst 0 us

theorem turns_cons {u : OutputUnit} (us : List OutputUnit) (h : t.turn output u = (.ok (), t')) :
    t.turns output (u :: us) = (t, u) :: t'.turns output us := by
  have rest : ∀ i, (t.writeUnits output ((u :: us).take (i + 1))).2 = (t'.writeUnits output (us.take i)).2 := by
    intro i
    rw [List.take_succ_cons, writeUnits_cons_of_ok (us.take i) h]
  unfold turns
  rw [List.zipIdx_cons, List.zipIdx_succ, List.map_cons, List.map_map]
  simp only [Function.comp_def, rest]
  rfl

/-- A summary lists the path of every unit once and in order, as skipped if the unit was left alone and as written if it
was not. -/
structure Tells (t : FileTree) (output : String) (us : List OutputUnit) (s : Summary) : Prop where
  units : (t.turns output us).map Prod.snd = us
  skipped : s.skipped = ((t.turns output us).filter fun (found, u) => found.keeps output u).map
    fun (_, u) => Path.join output u.path
  written : s.written = ((t.turns output us).filter fun (found, u) => !found.keeps output u).map
    fun (_, u) => Path.join output u.path

theorem tells_of_writeUnits {us : List OutputUnit} {s : Summary} (run : t.writeUnits output us = (.ok s, t')) :
    t.Tells output us s := by
  induction us generalizing t s with
  | nil =>
    obtain ⟨rfl, -⟩ := writeUnits_nil_eq_ok.1 run
    exact ⟨map_snd_turns t output [], rfl, rfl⟩
  | cons u us ih =>
    obtain ⟨t₁, s', turn, rest, rfl⟩ := writeUnits_cons_eq_ok.1 run
    obtain ⟨-, skipped, written⟩ := ih rest
    refine ⟨map_snd_turns t output (u :: us), ?_, ?_⟩
    all_goals
      rw [turns_cons us turn]
      cases kept : t.keeps output u <;> simp [Summary.cons, kept, skipped, written]

/-! ## Files that are replaced unseen -/

/-- The first unit may carry edits, and something else than its content stands where it aims; but the path of the unit
does not lead there yet, so that the unit is written all the same, and no later unit is meant to replace what was
there. -/
def Clobbers (t : FileTree) (output : String) : List OutputUnit → Prop
  | [] => False
  | u :: us => u.forceOverwrite = false ∧ t.pathExists (Path.join output u.path) = false ∧
      (∃ node, t.node? (t.site output u) = some node ∧ node ≠ .file u.content) ∧
      (t.writeUnits output [u]).1.isOk = true ∧ ∀ v ∈ us, v.forceOverwrite = true → t.site output v ≠ t.site output u

theorem turn_of_isOk {u : OutputUnit} (h : (t.writeUnits output [u]).1.isOk = true) :
    ∃ t₁, t.turn output u = (.ok (), t₁) := by
  rcases turn : t.turn output u with ⟨e | _, t₁⟩
  · rw [writeUnits_cons_of_error [] turn] at h
    cases h
  · exact ⟨t₁, rfl⟩

theorem isOk_of_turn {u : OutputUnit} {t₁ : FileTree} (h : t.turn output u = (.ok (), t₁)) :
    (t.writeUnits output [u]).1.isOk = true := by
  rw [writeUnits_cons_of_ok [] h]
  rfl

theorem keeps_of_not_exists {u : OutputUnit} (h : t.pathExists (Path.join output u.path) = false) :
    t.keeps output u = false := by
  unfold keeps
  rw [h, Bool.and_false]

/-- What clobbering needs: something is not found through the path of the first unit although it stands where the unit
aims and the unit can be written. -/
theorem Clobbers.exists_write {u : OutputUnit} {us : List OutputUnit} (h : t.Clobbers output (u :: us)) :
    t.pathExists (Path.join output u.path) = false ∧ (t.node? (t.aim (Path.join output u.path))).isSome ∧
      ∃ t₁ t₂ : FileTree, t₁.write (Path.join output u.path) u.content = .ok t₂ := by
  obtain ⟨-, hidden, ⟨x, node, -⟩, done, -⟩ := h
  obtain ⟨t₂, turn⟩ := turn_of_isOk done
  obtain ⟨t₁, -, write⟩ := exists_write_of_turn turn (keeps_of_not_exists hidden)
  exact ⟨hidden, Option.isSome_of_eq_some node, t₁, t₂, write⟩

/-- Nothing is hidden below a directory whose path leads somewhere or never goes up. -/
theorem not_clobbers (tree : t.IsTree) (reaches : t.Leads output ∨ ".." ∉ steps output) {us : List OutputUnit}
    (plain : ∀ u ∈ us, IsPlain u.path) : ¬t.Clobbers output us := by
  intro clobbers
  cases us with
  | nil => exact clobbers
  | cons u us =>
    obtain ⟨hidden, present, t₁, t₂, write⟩ := clobbers.exists_write
    rw [pathExists_of_present tree (plain u List.mem_cons_self) reaches write present] at hidden
    cases hidden

/-- After the first turn of a run nothing is hidden any more: the path of the output directory leads somewhere. -/
theorem not_clobbers_of_turn {u : OutputUnit} {us : List OutputUnit} (h : t.turn output u = (.ok (), t'))
    (tree : t.IsTree) (plain : ∀ v ∈ u :: us, IsPlain v.path) : ¬t'.Clobbers output us := by
  have turn := turn_of_ok h
  have leads : t'.Leads output := leads_of_locate (plain u List.mem_cons_self).relative turn.leads
  exact not_clobbers (turn.tree tree) (.inl leads) fun v hv => plain v (List.mem_cons_of_mem _ hv)

/-- Unless it clobbers, a turn leaves what no unit is meant to replace. -/
theorem node_of_turn {u : OutputUnit} {us : List OutputUnit} {p : Place} (h : t.turn output u = (.ok (), t'))
    (safe : ¬t.Clobbers output (u :: us)) (free : ∀ v ∈ u :: us, v.forceOverwrite = true → t.site output v ≠ p)
    (present : (t.node? p).isSome) : t'.node? p = t.node? p := by
  have turn := turn_of_ok h
  by_cases here : p = t.site output u
  · cases kept : t.keeps output u with
    | true => rw [turn.kept kept]
    | false =>
      obtain ⟨free_u, others⟩ := List.forall_mem_cons.1 free
      have unforced : u.forceOverwrite = false := Bool.eq_false_iff.2 fun forced => free_u forced here.symm
      have hidden : t.pathExists (Path.join output u.path) = false := by
        unfold keeps at kept
        simpa [unforced] using kept
      subst here
      cases node : t.node? (t.site output u) with
      | none =>
        rw [node] at present
        cases present
      | some x =>
        -- the content of the unit is there already, for otherwise something would be clobbered
        by_contra changed
        refine safe ⟨unforced, hidden, ⟨x, node, ?_⟩, isOk_of_turn h, others⟩
        rintro rfl
        exact changed (turn.given kept)
  · exact (turn.elsewhere p here).eq_of_present present

/-! ## Files through a run -/

/-- A run leaves what none of its units is meant to replace, whether it fails or not. -/
theorem node_of_writeUnits {us : List OutputUnit} {p : Place} (tree : t.IsTree) (plain : ∀ u ∈ us, IsPlain u.path)
    (safe : ¬t.Clobbers output us) (free : ∀ u ∈ us, u.forceOverwrite = true → t.site output u ≠ p)
    (present : (t.node? p).isSome) : (t.writeUnits output us).2.node? p = t.node? p := by
  induction us generalizing t with
  | nil => rfl
  | cons u us ih =>
    rcases h : t.turn output u with ⟨e | _, t₁⟩
    · rw [writeUnits_cons_of_error us h]
      exact ((adds_of_turn_error h).stays p).eq_of_present present
    · rw [writeUnits_cons_of_ok us h]
      have turn := turn_of_ok h
      have kept : t₁.node? p = t.node? p := node_of_turn h safe free present
      rw [← kept] at present ⊢
      -- the others keep it as well: none of them clobbers, and all aim where they aimed before
      refine ih (turn.tree tree) (fun v hv => plain v (List.mem_cons_of_mem _ hv)) (not_clobbers_of_turn h tree plain)
        (fun v hv forced => ?_) present
      rw [turn.grows.site]
      exact free v (List.mem_cons_of_mem _ hv) forced

/-- Whatever stands somewhere stays there in a run, whether it fails or not, except that a file may be given a text. -/
theorem stays_or_file_of_writeUnits {us : List OutputUnit} {p : Place} {node : FileNode}
    (found : t.node? p = some node) : (t.writeUnits output us).2.node? p = some node ∨
      node ≠ .directory ∧ ∃ text, (t.writeUnits output us).2.node? p = some (.file text) := by
  induction us generalizing t node with
  | nil => exact .inl found
  | cons u us ih =>
    have present := Option.isSome_of_eq_some found
    rcases h : t.turn output u with ⟨e | _, t₁⟩
    · rw [writeUnits_cons_of_error us h]
      exact .inl ((((adds_of_turn_error h).stays p).eq_of_present present).trans found)
    · rw [writeUnits_cons_of_ok us h]
      have turn := turn_of_ok h
      have next : t₁.node? p = some node ∨ node ≠ .directory ∧ t₁.node? p = some (.file u.content) := by
        by_cases here : p = t.site output u
        · subst here
          cases kept : t.keeps output u with
          | true => exact .inl (turn.kept kept ▸ found)
          | false => exact .inr ⟨fun directory => turn.free kept (directory ▸ found), turn.given kept⟩
        · exact .inl (((turn.elsewhere p here).eq_of_present present).trans found)
      rcases next with next | ⟨file, next⟩
      · exact ih next
      · exact .inr ⟨file, (ih next).elim (fun same => ⟨u.content, same⟩) And.right⟩

/-- Where a file has a text, it has one after a run. -/
theorem exists_file_of_writeUnits {us : List OutputUnit} {p : Place} {text : String}
    (file : t.node? p = some (.file text)) : ∃ text', (t.writeUnits output us).2.node? p = some (.file text') :=
  (stays_or_file_of_writeUnits file).elim (fun same => ⟨text, same⟩) And.right

/-! ## Where the units end -/

/-- What the last unit that is meant to replace what is at a place puts there. -/
def replacement (t : FileTree) (output : String) (us : List OutputUnit) (p : Place) : Option FileNode :=
  (us.reverse.find? fun u => u.forceOverwrite && t.site output u == p).map fun u => .file u.content

/-- What the first unit that aims at a place has for it. -/
def supply (t : FileTree) (output : String) (us : List OutputUnit) (p : Place) : Option FileNode :=
  (us.find? fun u => t.site output u == p).map fun u => .file u.content

/-- What is due at a place in a run: the content of the last unit that is meant to replace what is there, else what was
there before, else the content of the first unit that aims there. -/
def due (t : FileTree) (output : String) (us : List OutputUnit) (p : Place) : Option FileNode :=
  (t.replacement output us p).or ((t.node? p).or (t.supply output us p))

/-- A run turns a place where nothing was into a directory, before a unit that aims there has its turn. -/
def BecomesDirectory (t : FileTree) (output : String) (us : List OutputUnit) (p : Place) : Prop :=
  t.node? p = none ∧ ∃ earlier later, us = earlier ++ later ∧ (∀ u ∈ earlier, t.site output u ≠ p) ∧
    (t.writeUnits output earlier).2.node? p = some .directory

theorem replacement_cons (t : FileTree) (output : String) (u : OutputUnit) (us : List OutputUnit) (p : Place) :
    t.replacement output (u :: us) p = (t.replacement output us p).or
      (if u.forceOverwrite && t.site output u == p then some (.file u.content) else none) := by
  unfold replacement
  rw [List.reverse_cons, List.find?_append, List.find?_singleton, Option.map_or]
  split_ifs <;> rfl

theorem replacement_eq_none {us : List OutputUnit} {p : Place} : t.replacement output us p = none ↔
    ∀ u ∈ us, u.forceOverwrite = true → t.site output u ≠ p := by
  simp [replacement]

/-- What is due where the first unit aims. -/
theorem due_cons_site (t : FileTree) (output : String) (u : OutputUnit) (us : List OutputUnit) :
    t.due output (u :: us) (t.site output u) = (t.replacement output us (t.site output u)).or
      (if u.forceOverwrite then some (.file u.content) else
        (t.node? (t.site output u)).or (some (.file u.content))) := by
  unfold due supply
  rw [replacement_cons, Option.or_assoc]
  cases u.forceOverwrite <;> simp

/-- What is due elsewhere. -/
theorem due_cons_of_ne {u : OutputUnit} {p : Place} (us : List OutputUnit) (other : p ≠ t.site output u) :
    t.due output (u :: us) p = t.due output us p := by
  unfold due supply
  rw [replacement_cons]
  simp [Ne.symm other]

section Start

variable (same : ∀ u, t'.site output u = t.site output u)

include same

theorem replacement_congr (us : List OutputUnit) (p : Place) :
    t'.replacement output us p = t.replacement output us p := by
  unfold replacement
  simp only [same]

theorem due_congr {p : Place} (us : List OutputUnit) (node : t'.node? p = t.node? p) :
    t'.due output us p = t.due output us p := by
  unfold due supply
  rw [replacement_congr same, node]
  simp only [same]

end Start

/-- What is due where a unit aims, unless another one replaces it, is there after its turn. -/
theorem node_site_of_turn {u : OutputUnit} {us : List OutputUnit} (h : t.turn output u = (.ok (), t'))
    (plain : IsPlain u.path) (safe : ¬t.Clobbers output (u :: us))
    (others : ∀ v ∈ us, v.forceOverwrite = true → t.site output v ≠ t.site output u) :
    t'.node? (t.site output u) = if u.forceOverwrite then some (.file u.content) else
      (t.node? (t.site output u)).or (some (.file u.content)) := by
  have turn := turn_of_ok h
  cases force : u.forceOverwrite with
  | true => exact turn.given (by simp [keeps, force])
  | false =>
    cases node : t.node? (t.site output u) with
    | some x =>
      have free : ∀ v ∈ u :: us, v.forceOverwrite = true → t.site output v ≠ t.site output u :=
        List.forall_mem_cons.2 ⟨by simp [force], others⟩
      rw [node_of_turn h safe free (Option.isSome_of_eq_some node), node]
      rfl
    | none =>
      cases kept : t.keeps output u with
      | true =>
        have present := turn.present plain
        rw [turn.kept kept, node] at present
        cases present
      | false => exact turn.given kept

/-- A run ends with what is due at every place, except where it has made a directory. -/
theorem node_at_end {us : List OutputUnit} {s : Summary} {p : Place} (tree : t.IsTree)
    (plain : ∀ u ∈ us, IsPlain u.path) (safe : ¬t.Clobbers output us) (run : t.writeUnits output us = (.ok s, t')) :
    t'.node? p = t.due output us p ∨ t.BecomesDirectory output us p ∧ t'.node? p = some .directory := by
  induction us generalizing t s with
  | nil =>
    obtain ⟨-, rfl⟩ := writeUnits_nil_eq_ok.1 run
    exact .inl (by simp [due, replacement, supply])
  | cons u us ih =>
    obtain ⟨t₁, s', h, rest, -⟩ := writeUnits_cons_eq_ok.1 run
    have turn := turn_of_ok h
    have same := turn.grows.site output
    have later := ih (turn.tree tree) (fun v hv => plain v (List.mem_cons_of_mem _ hv))
      (not_clobbers_of_turn h tree plain) rest
    -- where the first unit aims something stands after its turn, so that the others make no directory there; elsewhere
    -- the turn changes nothing that is due, or it makes a directory, which stays one
    by_cases here : p = t.site output u
    · subst here
      have present := turn.present (plain u List.mem_cons_self)
      rcases later with later | ⟨⟨absent, -⟩, -⟩
      · left
        rw [later, due_cons_site]
        unfold due
        rw [replacement_congr same]
        cases replaced : t.replacement output us (t.site output u) with
        | some x => rfl
        | none =>
          rw [← node_site_of_turn h (plain u List.mem_cons_self) safe (replacement_eq_none.1 replaced)]
          obtain ⟨x, node⟩ := Option.isSome_iff_exists.1 present
          rw [node]
          rfl
      · rw [absent] at present
        cases present
    · rw [due_cons_of_ne us here]
      rcases turn.elsewhere p here with kept | ⟨absent, made⟩
      · rw [← due_congr same us kept]
        refine later.imp_right fun ⟨⟨absent, earlier, others, cut, aside, directory⟩, ends⟩ =>
          ⟨⟨kept ▸ absent, u :: earlier, others, by rw [cut, List.cons_append], ?_, ?_⟩, ends⟩
        · exact List.forall_mem_cons.2 ⟨Ne.symm here, fun v hv => same v ▸ aside v hv⟩
        · rw [writeUnits_cons_of_ok earlier h]
          exact directory
      · refine .inr ⟨⟨absent, [u], us, rfl, by simpa using Ne.symm here, ?_⟩,
          (grows_of_writeUnits rest).directory p made⟩
        rw [writeUnits_cons_of_ok [] h]
        exact made

/-! ## Runs as a whole -/

/-- A run over units leaves alone what it must, and says what it did. -/
structure Faithful (t : FileTree) (output : String) (us : List OutputUnit) : Prop where
  /-- What no unit is meant to replace stays as it is, also when the run fails. -/
  kept : ∀ p node, t.node? p = some node → (∀ u ∈ us, u.forceOverwrite = true → t.site output u ≠ p) →
    (t.writeUnits output us).2.node? p = some node
  /-- Nothing is gone, also when the run fails: it stays as it is, or it is a file and has a text. -/
  files : ∀ p node, t.node? p = some node → (t.writeUnits output us).2.node? p = some node ∨
    node ≠ .directory ∧ ∃ text, (t.writeUnits output us).2.node? p = some (.file text)
  /-- The summary lists every unit, as skipped or as written. -/
  tells : ∀ s t', t.writeUnits output us = (.ok s, t') → t.Tells output us s
  /-- Where units aim there is what is due, or a directory that other units needed. -/
  ends : ∀ s t', t.writeUnits output us = (.ok s, t') → ∀ u ∈ us,
    t'.node? (t.site output u) = t.due output us (t.site output u) ∨
      t.BecomesDirectory output us (t.site output u) ∧ t'.node? (t.site output u) = some .directory

/-- A run that clobbers is not faithful: the content of the first unit is there at the end. -/
theorem Clobbers.not_faithful {us : List OutputUnit} (clobbers : t.Clobbers output us) (tree : t.IsTree)
    (plain : ∀ u ∈ us, IsPlain u.path) : ¬t.Faithful output us := by
  intro faithful
  cases us with
  | nil => exact clobbers
  | cons u us =>
    obtain ⟨unforced, hidden, ⟨x, node, differs⟩, done, others⟩ := clobbers
    obtain ⟨t₁, h⟩ := turn_of_isOk done
    have turn := turn_of_ok h
    have replaced := turn.given (keeps_of_not_exists hidden)
    have final : (t.writeUnits output (u :: us)).2.node? (t.site output u) = some (.file u.content) := by
      rw [writeUnits_cons_of_ok us h, ← replaced]
      refine node_of_writeUnits (turn.tree tree) (fun v hv => plain v (List.mem_cons_of_mem _ hv))
        (not_clobbers_of_turn h tree plain) (fun v hv forced => ?_) (Option.isSome_of_eq_some replaced)
      rw [turn.grows.site]
      exact others v hv forced
    have kept := faithful.kept _ x node (List.forall_mem_cons.2 ⟨by simp [unforced], others⟩)
    rw [final] at kept
    cases kept
    exact differs rfl

/-- A run over units with plain paths is faithful if and only if it does not clobber. It can clobber only if the path of
the output directory goes up, and leads nowhere before the run. -/
theorem faithful_iff {us : List OutputUnit} (tree : t.IsTree) (plain : ∀ u ∈ us, IsPlain u.path) :
    (t.Faithful output us ↔ ¬t.Clobbers output us) ∧
      (t.Clobbers output us → ".." ∈ steps output ∧ t.pathExists output = false) := by
  refine ⟨⟨fun faithful clobbers => clobbers.not_faithful tree plain faithful, fun safe => ?_⟩, fun clobbers => ?_⟩
  · refine ⟨fun p node found free => ?_, fun p node found => stays_or_file_of_writeUnits found,
      fun s t' run => tells_of_writeUnits run, fun s t' run u _ => node_at_end tree plain safe run⟩
    rw [node_of_writeUnits tree plain safe free (Option.isSome_of_eq_some found), found]
  · constructor
    · by_contra down
      exact not_clobbers tree (.inr down) plain clobbers
    · by_contra found
      exact not_clobbers tree (.inl (leads_of_pathExists (by simpa using found))) plain clobbers

/-- A directory of generated files, one of them edited. -/
def draftTree : FileTree := ⟨⟨[
  (["generated"], .directory), (["generated", "Query.ts"], .file "stale"),
  (["generated", "index.ts"], .file "edited")]⟩, []⟩

/-- Units for `draftTree`, with a path that occurs twice and one below a directory that is missing. -/
def draftUnits : List OutputUnit := [
  ⟨"index.ts", false, "root"⟩, ⟨"Query.ts", true, "first"⟩, ⟨"parts/Author.ts", false, "author"⟩,
  ⟨"Query.ts", true, "second"⟩]

theorem faithful_iff_draft : draftTree.IsTree ∧ (∀ u ∈ draftUnits, IsPlain u.path) ∧
    (draftTree.writeUnits "generated" draftUnits).1 = .ok
      ⟨["generated/Query.ts", "generated/parts/Author.ts", "generated/Query.ts"], ["generated/index.ts"]⟩ ∧
    draftTree.Faithful "generated" draftUnits := by
  have tree : draftTree.IsTree := by decide +kernel
  have plain : ∀ u ∈ draftUnits, IsPlain u.path := by decide +kernel
  obtain ⟨faithful, clobbers⟩ := faithful_iff tree plain
  have down : ".." ∉ steps "generated" := by decide +kernel
  exact ⟨tree, plain, by decide +kernel, faithful.2 fun h => down (clobbers h).1⟩

/-- A directory with an edited file, and nothing else. -/
def detourTree : FileTree := ⟨⟨[(["d"], .directory), (["d", "index.ts"], .file "edited")]⟩, []⟩

/-- The unit of the edited file. -/
def detourUnit : OutputUnit := ⟨"index.ts", false, "root"⟩

/-- Below `x/../d`, where `x` is missing, the edited file in `d` is not found, and replaced. -/
theorem detour_not_faithful : detourTree.IsTree ∧ IsPlain detourUnit.path ∧
    detourTree.node? ["d", "index.ts"] = some (.file "edited") ∧
    (detourTree.writeUnits "x/../d" [detourUnit]).2.node? ["d", "index.ts"] = some (.file "root") ∧
    ¬detourTree.Faithful "x/../d" [detourUnit] := by
  have replaced : (detourTree.writeUnits "x/../d" [detourUnit]).2.node? ["d", "index.ts"] = some (.file "root") := by
    decide +kernel
  refine ⟨by decide +kernel, by decide +kernel, rfl, replaced, fun faithful => ?_⟩
  have kept := faithful.kept ["d", "index.ts"] (.file "edited") rfl (by simp [detourUnit])
  rw [replaced] at kept
  exact absurd kept (by decide)

end FileTree

end SchemaTypings

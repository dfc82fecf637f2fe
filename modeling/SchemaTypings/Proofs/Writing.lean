import SchemaTypings.Proofs.Places

/-!
# What a run over units leaves in a tree

- `turn`: what a run does for one unit. A run is the turn of its first unit and a run over the others
  (`writeUnits_cons`), unless the turn fails;
- `Turn`: what a turn without failure does to a tree. Away from the place that the unit aims at, only directories are
  made;
- `settled`: units with different names for paths do not get in each other's way;
- `suppressed`: a unit that may carry edits is left out when one before it has its path.
-/

namespace SchemaTypings

/-- Adds the path of a unit to a summary, in front. -/
def Summary.cons (kept : Bool) (path : String) (s : Summary) : Summary :=
  if kept then { s with skipped := path :: s.skipped } else { s with written := path :: s.written }

theorem Summary.skipped_subset_cons (kept : Bool) (path : String) (s : Summary) :
    s.skipped ⊆ (s.cons kept path).skipped := by
  cases kept
  · exact List.Subset.refl _
  · exact List.subset_cons_self _ _

namespace FileTree

variable {t t' : FileTree} {output : String}

/-! ## Steps of a run -/

section Runs

variable {ε α β : Type}

theorem run_bind (m : ExceptT ε (StateM FileTree) α) (k : α → ExceptT ε (StateM FileTree) β) (t : FileTree) :
    (m >>= k).run.run t =
      match m.run.run t with
      | (.ok a, t₁) => (k a).run.run t₁
      | (.error e, t₁) => (.error e, t₁) := by
  rw [ExceptT.run_bind, StateT.run_bind]
  obtain ⟨_ | _, t₁⟩ := m.run.run t <;> rfl

theorem run_lift (m : StateM FileTree α) (t : FileTree) :
    (liftM m : ExceptT ε (StateM FileTree) α).run.run t = (.ok (m.run t).1, (m.run t).2) := rfl

end Runs

/-- Writing a file, or failing without effect. -/
theorem run_write (t : FileTree) (path text : String) :
    (do unless ← files.write path text do throw (.writing path) :
        ExceptT WriteFault (StateM FileTree) Unit).run.run t =
      match t.write path text with
      | .ok t' => (.ok (), t')
      | .error _ => (.error (.writing path), t) := by
  rw [run_bind, run_lift]
  simp only [files, StateT.run_modifyGet]
  cases t.write path text <;> rfl

/-- Writing a file with the directories above it: some directories are made, and then the file is written or the run has
failed. -/
theorem writeBelow_cases (t : FileTree) (path text : String) : ∃ t₁, AddsDirectories t t₁ ∧
    ((∃ e, (files.writeBelow path text).run.run t = (.error e, t₁)) ∨
      ∃ t₂, t₁.write path text = .ok t₂ ∧ (files.writeBelow path text).run.run t = (.ok (), t₂)) := by
  have write : ∀ t₁ : FileTree, (∃ e, (do unless ← files.write path text do throw (.writing path) :
        ExceptT WriteFault (StateM FileTree) Unit).run.run t₁ = (.error e, t₁)) ∨
      ∃ t₂, t₁.write path text = .ok t₂ ∧ (do unless ← files.write path text do throw (.writing path) :
        ExceptT WriteFault (StateM FileTree) Unit).run.run t₁ = (.ok (), t₂) := by
    intro t₁
    rw [run_write]
    cases t₁.write path text with
    | error => exact .inl ⟨_, rfl⟩
    | ok t₂ => exact .inr ⟨t₂, rfl, rfl⟩
  unfold Files.writeBelow
  cases Path.parent? path with
  | none => exact ⟨t, .refl t, write t⟩
  | some directory =>
    have adds := createDirectories_adds t directory
    simp only [run_bind, run_lift]
    have asked : (files.createDirectories directory).run t = t.createDirectories directory := rfl
    rw [asked]
    generalize t.createDirectories directory = made at adds ⊢
    obtain ⟨_ | _, t₁⟩ := made
    · exact ⟨t₁, adds, .inl ⟨_, rfl⟩⟩
    · exact ⟨t₁, adds, write t₁⟩

/-! ## Turns -/

/-- Whether a unit is left alone: it may carry edits, and its path leads to something. -/
def keeps (t : FileTree) (output : String) (u : OutputUnit) : Bool :=
  !u.forceOverwrite && t.pathExists (Path.join output u.path)

/-- The place that the path of a unit aims at below a directory. -/
def site (t : FileTree) (output : String) (u : OutputUnit) : Place := t.aim (Path.join output u.path)

/-- What a run does for one unit. -/
def turn (t : FileTree) (output : String) (u : OutputUnit) : Except WriteFault Unit × FileTree :=
  if t.keeps output u then (.ok (), t) else (files.writeBelow (Path.join output u.path) u.content).run.run t

/-- A run is the turn of its first unit and a run over the others, unless the turn fails. -/
theorem writeUnits_cons (t : FileTree) (output : String) (u : OutputUnit) (us : List OutputUnit) :
    t.writeUnits output (u :: us) =
      match t.turn output u with
      | (.ok (), t₁) =>
        ((t₁.writeUnits output us).1.map (Summary.cons (t.keeps output u) (Path.join output u.path)),
          (t₁.writeUnits output us).2)
      | (.error e, t₁) => (.error e, t₁) := by
  have others : ∀ (t₁ : FileTree) (add : Summary → Summary), (do
      let s ← files.writeUnits output us
      return add s : ExceptT WriteFault (StateM FileTree) Summary).run.run t₁ =
      ((t₁.writeUnits output us).1.map add, (t₁.writeUnits output us).2) := by
    intro t₁ add
    rw [run_bind]
    unfold writeUnits
    obtain ⟨_ | _, t₂⟩ := (files.writeUnits output us).run.run t₁ <;> rfl
  -- what follows once it is known whether the unit is left alone
  have turn : ∀ kept : Bool, (do
      if kept then
        let s ← files.writeUnits output us
        return { s with skipped := Path.join output u.path :: s.skipped }
      else
        files.writeBelow (Path.join output u.path) u.content
        let s ← files.writeUnits output us
        return { s with written := Path.join output u.path :: s.written } :
          ExceptT WriteFault (StateM FileTree) Summary).run.run t =
      match if kept then (.ok (), t) else (files.writeBelow (Path.join output u.path) u.content).run.run t with
      | (.ok (), t₁) =>
        ((t₁.writeUnits output us).1.map (Summary.cons kept (Path.join output u.path)), (t₁.writeUnits output us).2)
      | (.error e, t₁) => (.error e, t₁) := by
    rintro (_ | _)
    · simp only [Bool.false_eq_true, if_false]
      rw [run_bind]
      obtain ⟨_ | _, t₁⟩ := (files.writeBelow (Path.join output u.path) u.content).run.run t
      · rfl
      · exact others t₁ _
    · exact others t _
  show (Files.writeUnits files output (u :: us)).run.run t = _
  rw [Files.writeUnits]
  unfold FileTree.turn keeps
  cases u.forceOverwrite with
  | true =>
    rw [if_pos rfl, run_bind]
    exact turn false
  | false =>
    rw [if_neg (by decide), run_bind, run_lift]
    exact turn (t.pathExists (Path.join output u.path))

theorem writeUnits_cons_of_ok {u : OutputUnit} (us : List OutputUnit) (h : t.turn output u = (.ok (), t')) :
    t.writeUnits output (u :: us) =
      ((t'.writeUnits output us).1.map (Summary.cons (t.keeps output u) (Path.join output u.path)),
        (t'.writeUnits output us).2) := by
  rw [writeUnits_cons, h]

theorem writeUnits_cons_of_error {u : OutputUnit} {e : WriteFault} (us : List OutputUnit)
    (h : t.turn output u = (.error e, t')) : t.writeUnits output (u :: us) = (.error e, t') := by
  rw [writeUnits_cons, h]

theorem writeUnits_cons_eq_ok {u : OutputUnit} {us : List OutputUnit} {s : Summary} :
    t.writeUnits output (u :: us) = (.ok s, t') ↔
      ∃ t₁ s', t.turn output u = (.ok (), t₁) ∧ t₁.writeUnits output us = (.ok s', t') ∧
        s = s'.cons (t.keeps output u) (Path.join output u.path) := by
  rcases turn : t.turn output u with ⟨e | _, t₁⟩
  · rw [writeUnits_cons_of_error us turn]
    simp
  · rw [writeUnits_cons_of_ok us turn]
    rcases run : t₁.writeUnits output us with ⟨e | s', t₂⟩
    · constructor
      · intro h
        cases h
      · rintro ⟨t₃, s', same, others, -⟩
        cases same
        rw [run] at others
        cases others
    · constructor
      · intro h
        cases h
        exact ⟨t₁, s', rfl, run, rfl⟩
      · rintro ⟨t₃, s'', same, others, rfl⟩
        cases same
        rw [run] at others
        cases others
        rfl

theorem writeUnits_nil_eq_ok {s : Summary} : t.writeUnits output [] = (.ok s, t') ↔ s = ⟨[], []⟩ ∧ t' = t := by
  constructor
  · intro run
    cases run
    exact ⟨rfl, rfl⟩
  · rintro ⟨rfl, rfl⟩
    rfl

/-- What a turn without failure does: the path of the unit leads to the place that it aims at, the unit was left alone
or is there, and elsewhere directories have been made at most. -/
structure Turn (t t' : FileTree) (output : String) (u : OutputUnit) : Prop where
  leads : t'.locate (Path.join output u.path) = .ok (t.site output u)
  grows : Grows t t'
  tree : t.IsTree → t'.IsTree
  elsewhere : ∀ p, p ≠ t.site output u → Stays t t' p
  kept : t.keeps output u = true → t' = t
  free : t.keeps output u = false → t.node? (t.site output u) ≠ some .directory
  given : t.keeps output u = false → t'.node? (t.site output u) = some (.file u.content)

/-- A turn that writes makes directories and writes. -/
theorem exists_write_of_turn {u : OutputUnit} (h : t.turn output u = (.ok (), t')) (wanted : t.keeps output u = false) :
    ∃ t₁, AddsDirectories t t₁ ∧ t₁.write (Path.join output u.path) u.content = .ok t' := by
  unfold turn at h
  rw [wanted, if_neg (by decide)] at h
  obtain ⟨t₁, adds, ⟨e, fails⟩ | ⟨t₂, write, ends⟩⟩ := writeBelow_cases t (Path.join output u.path) u.content
  · rw [fails] at h
    cases h
  · rw [ends] at h
    cases h
    exact ⟨t₁, adds, write⟩

/-- A turn that fails has made directories at most. -/
theorem adds_of_turn_error {u : OutputUnit} {e : WriteFault} (h : t.turn output u = (.error e, t')) :
    AddsDirectories t t' := by
  unfold turn at h
  split_ifs at h
  · cases h
  obtain ⟨t₁, adds, ⟨e, fails⟩ | ⟨t₂, -, ends⟩⟩ := writeBelow_cases t (Path.join output u.path) u.content
  · rw [fails] at h
    cases h
    exact adds
  · rw [ends] at h
    cases h

theorem turn_of_ok {u : OutputUnit} (h : t.turn output u = (.ok (), t')) : Turn t t' output u := by
  cases kept : t.keeps output u with
  | true =>
    unfold turn at h
    rw [kept, if_pos rfl] at h
    cases h
    have found : t.pathExists (Path.join output u.path) = true := by
      unfold keeps at kept
      exact (Bool.and_eq_true_iff.1 kept).2
    exact ⟨pathExists_eq_true.1 found, .refl t, id, fun p _ => .refl t p, fun _ => rfl, by simp [kept], by simp [kept]⟩
  | false =>
    obtain ⟨t₁, adds, write⟩ := exists_write_of_turn h kept
    have writes := writes_of_write write
    have aim : t₁.aim (Path.join output u.path) = t.site output u := adds.grows.aim _
    refine ⟨aim ▸ writes.leads, adds.grows.trans writes.grows, writes.tree ∘ adds.tree, fun p hp => ?_, by simp [kept],
      fun _ directory => ?_, fun _ => ?_⟩
    · refine (adds.stays p).trans (.inl ?_)
      rw [writes.node, aim, if_neg hp]
    · exact writes.free (aim ▸ adds.grows.directory _ directory)
    · rw [writes.node, aim, if_pos rfl]

theorem Grows.site (h : Grows t t') (output : String) (u : OutputUnit) : t'.site output u = t.site output u := h.aim _

/-- After its turn something stands where a unit with a plain path aims. -/
theorem Turn.present {u : OutputUnit} (turn : Turn t t' output u) (plain : IsPlain u.path) :
    (t'.node? (t.site output u)).isSome := present_of_locate_join plain turn.leads

/-! ## Runs -/

/-- A run makes a tree grow, and leaves a tree, whether it fails or not. -/
theorem grows_writeUnits (output : String) : ∀ (us : List OutputUnit) (t : FileTree),
    Grows t (t.writeUnits output us).2 ∧ (t.IsTree → (t.writeUnits output us).2.IsTree)
  | [], t => ⟨.refl t, id⟩
  | u :: us, t => by
    rcases h : t.turn output u with ⟨e | _, t₁⟩
    · rw [writeUnits_cons_of_error us h]
      exact ⟨(adds_of_turn_error h).grows, (adds_of_turn_error h).tree⟩
    · rw [writeUnits_cons_of_ok us h]
      obtain ⟨grows, tree⟩ := grows_writeUnits output us t₁
      exact ⟨(turn_of_ok h).grows.trans grows, tree ∘ (turn_of_ok h).tree⟩

theorem grows_of_writeUnits {us : List OutputUnit} {s : Summary} (run : t.writeUnits output us = (.ok s, t')) :
    Grows t t' := by
  have grows := (grows_writeUnits output us t).1
  rwa [run] at grows

/-- A run makes only directories where no unit aims. -/
theorem stays_of_writeUnits {p : Place} : ∀ {us : List OutputUnit} {t : FileTree} {s : Summary},
    (∀ u ∈ us, p ≠ t.site output u) → t.writeUnits output us = (.ok s, t') → Stays t t' p
  | [], _, _, _, run => by
    obtain ⟨-, rfl⟩ := writeUnits_nil_eq_ok.1 run
    exact .refl _ _
  | u :: us, t, s, other, run => by
    obtain ⟨t₁, s', turn, others, -⟩ := writeUnits_cons_eq_ok.1 run
    obtain ⟨differs, other⟩ := List.forall_mem_cons.1 other
    have turn := turn_of_ok turn
    exact (turn.elsewhere p differs).trans
      (stays_of_writeUnits (fun v hv => turn.grows.site output v ▸ other v hv) others)

/-- A unit has come to rest: its file has its content, or the unit may carry edits and at its path there is what was
there before the run, or a directory made in the run. -/
def Settled (t t' : FileTree) (output : String) (u : OutputUnit) : Prop :=
  ∃ place, t'.locate (Path.join output u.path) = .ok place ∧
    (t'.node? place = some (.file u.content) ∨ u.forceOverwrite = false ∧ Stays t t' place)

/-- After a run over units with different names for paths all of them have come to rest. -/
theorem settled : ∀ {us : List OutputUnit} {t : FileTree} {s : Summary}, (∀ u ∈ us, IsEntryName u.path) →
    (us.map OutputUnit.path).Nodup → t.writeUnits output us = (.ok s, t') → ∀ u ∈ us, Settled t t' output u
  | [], _, _, _, _, _ => nofun
  | u :: us, t, s, names, distinct, run => by
    obtain ⟨hu, hus⟩ := List.forall_mem_cons.1 names
    obtain ⟨fresh, distinct⟩ := List.nodup_cons.1 distinct
    have other : ∀ v ∈ us, t.site output u ≠ t.site output v := fun v hv same =>
      fresh ((aim_join_inj hu (hus v hv)).1 same ▸ List.mem_map_of_mem hv)
    obtain ⟨t₁, s', turn, rest, -⟩ := writeUnits_cons_eq_ok.1 run
    have turn := turn_of_ok turn
    have stays : Stays t₁ t' (t.site output u) :=
      stays_of_writeUnits (fun v hv => turn.grows.site output v ▸ other v hv) rest
    refine List.forall_mem_cons.2 ⟨?_, fun v hv => ?_⟩
    · -- the other units leave the place of the first one alone
      refine ⟨t.site output u, (grows_of_writeUnits rest).locate turn.leads, ?_⟩
      cases kept : t.keeps output u with
      | true =>
        have unforced : u.forceOverwrite = false := by
          unfold keeps at kept
          simpa using (Bool.and_eq_true_iff.1 kept).1
        exact .inr ⟨unforced, turn.kept kept ▸ stays⟩
      | false =>
        left
        rw [stays.eq_of_present (turn.present hu.plain), turn.given kept]
    · -- and the first one has left theirs alone
      obtain ⟨place, located, rests⟩ := settled hus distinct rest v hv
      refine ⟨place, located, rests.imp_right fun ⟨unforced, stays⟩ => ⟨unforced, ?_⟩⟩
      have aims : place = t.site output v :=
        (aim_of_locate located).trans ((turn.grows.trans (grows_of_writeUnits rest)).site output v)
      exact (turn.elsewhere place fun same => other v hv (same.symm.trans aims)).trans stays

/-- Where the path of a name leads to something, units that may carry edits are skipped, and it stays as it is. -/
theorem skipped_of_located {n : String} {p : Place} (hn : IsEntryName n) :
    ∀ {us : List OutputUnit} {t : FileTree} {s : Summary}, (∀ u ∈ us, IsEntryName u.path) →
    (∀ u ∈ us, u.path = n → u.forceOverwrite = false) → t.locate (Path.join output n) = .ok p →
    t.writeUnits output us = (.ok s, t') →
    t'.node? p = t.node? p ∧ ∀ u ∈ us, u.path = n → Path.join output n ∈ s.skipped
  | [], _, _, _, _, _, run => by
    obtain ⟨-, rfl⟩ := writeUnits_nil_eq_ok.1 run
    exact ⟨rfl, nofun⟩
  | u :: us, t, s, names, unforced, located, run => by
    obtain ⟨hu, hus⟩ := List.forall_mem_cons.1 names
    obtain ⟨unforced_u, unforced⟩ := List.forall_mem_cons.1 unforced
    obtain ⟨t₁, s', turn, rest, rfl⟩ := writeUnits_cons_eq_ok.1 run
    have turn := turn_of_ok turn
    obtain ⟨kept, skips⟩ := skipped_of_located hn hus unforced (turn.grows.locate located) rest
    by_cases same : u.path = n
    · have alone : t.keeps output u = true := by
        unfold keeps
        rw [unforced_u same, same, pathExists_eq_true.2 (aim_of_locate located ▸ located)]
        rfl
      obtain rfl := turn.kept alone
      rw [alone]
      exact ⟨kept, fun _ _ _ => by simp [Summary.cons, same]⟩
    · have stays : Stays t t₁ p :=
        turn.elsewhere p fun here => same ((aim_join_inj hu hn).1 (here.symm.trans (aim_of_locate located)))
      refine ⟨kept.trans (stays.eq_of_present (present_of_locate_join hn.plain located)),
        List.forall_mem_cons.2 ⟨fun e => absurd e same, fun v hv e => ?_⟩⟩
      exact Summary.skipped_subset_cons _ _ _ (skips v hv e)

/-- A unit that is always written keeps later units from its path if they may carry edits: they are skipped, whether or
not anything was there before the run. -/
theorem suppressed {u : OutputUnit} {later : List OutputUnit} (forced : u.forceOverwrite = true)
    (unforced : ∀ v ∈ later, v.path = u.path → v.forceOverwrite = false) :
    ∀ {earlier : List OutputUnit} {t : FileTree} {s : Summary}, (∀ v ∈ earlier ++ u :: later, IsEntryName v.path) →
    t.writeUnits output (earlier ++ u :: later) = (.ok s, t') →
    t'.read (Path.join output u.path) = some u.content ∧
      ∀ v ∈ later, v.path = u.path → Path.join output u.path ∈ s.skipped
  | [], t, s, names, run => by
    obtain ⟨hu, hlater⟩ := List.forall_mem_cons.1 names
    obtain ⟨t₁, s', turn, rest, rfl⟩ := writeUnits_cons_eq_ok.1 run
    have turn := turn_of_ok turn
    obtain ⟨kept, skips⟩ := skipped_of_located hu hlater unforced turn.leads rest
    have wanted : t.keeps output u = false := by
      unfold keeps
      rw [forced]
      rfl
    refine ⟨?_, fun v hv same => Summary.skipped_subset_cons _ _ _ (skips v hv same)⟩
    exact read_eq_some.2 ⟨_, (grows_of_writeUnits rest).locate turn.leads, kept.trans (turn.given wanted)⟩
  | v :: earlier, t, s, names, run => by
    obtain ⟨hv, others⟩ := List.forall_mem_cons.1 names
    obtain ⟨t₁, s', turn, rest, rfl⟩ := writeUnits_cons_eq_ok.1 run
    obtain ⟨written, skips⟩ := suppressed forced unforced others rest
    exact ⟨written, fun w hw same => Summary.skipped_subset_cons _ _ _ (skips w hw same)⟩

end FileTree

end SchemaTypings

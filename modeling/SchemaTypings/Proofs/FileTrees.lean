import Mathlib.Data.List.TakeWhile
import SchemaTypings.FileTree
import SchemaTypings.Proofs.Computation

/-!
# What operations leave in a tree of files

- `IsTree`: what stands somewhere stands in a directory;
- `Grows`: nothing vanishes from a tree, and directories stay directories. Paths that lead somewhere keep leading there
  (`Grows.follow`);
- `AddsDirectories`: a tree only gains directories. This is what making directories does (`createDirectories_adds`).
  Where a directory is there nothing is made (`createDirectories_of_isDirectory`), and it is there afterwards
  (`isDirectory_of_createDirectories`);
- `aim`: the place that a path names, whatever stands there. A path that leads somewhere leads to this place
  (`locate_eq_ok`), and it leads there if something stands there, unless it goes up through something that is missing
  (`locate_of_present`);
- `write_eq_ok`: writing changes the node at the place that the path aims at, and no other.
-/

namespace SchemaTypings

namespace FileTree

variable {t t' t'' : FileTree}

/-! ## Nodes -/

/-- Putting something at a place other than the root is seen at this place only. -/
theorem node?_put (t : FileTree) {place : Place} (h : place ≠ []) (node : FileNode) (p : Place) :
    (t.put place node).node? p = if p = place then some node else t.node? p := by
  by_cases root : p = []
  · simp [node?, root, Ne.symm h]
  · simp [node?, put, root]

/-- What stands somewhere stands in a directory. -/
def IsTree (t : FileTree) : Prop :=
  ∀ (p : Place) (n : String), (t.node? (p ++ [n])).isSome → t.node? p = some .directory

/-- It is enough to look at what a tree lists. -/
theorem isTree_iff : t.IsTree ↔ ∀ p ∈ t.nodes.keys, t.node? p.dropLast = some .directory := by
  constructor
  · intro tree p hp
    rcases List.eq_nil_or_concat p with rfl | ⟨above, n, rfl⟩
    · rfl
    · rw [List.concat_eq_append] at hp ⊢
      rw [List.dropLast_concat]
      refine tree above n ?_
      unfold node?
      rw [if_neg (by simp)]
      exact OrderedMap.isSome_get?_of_mem_keys hp
  · intro listed p n present
    obtain ⟨node, found⟩ := Option.isSome_iff_exists.1 present
    unfold node? at found
    rw [if_neg (by simp)] at found
    have directory := listed _ (OrderedMap.mem_keys_of_get? found)
    rwa [List.dropLast_concat] at directory

instance (t : FileTree) : Decidable t.IsTree := decidable_of_iff _ isTree_iff.symm

/-- Putting something into a directory of a tree, but not in the place of a directory, leaves a tree. -/
theorem IsTree.put (tree : t.IsTree) {q : Place} {name : String} (above : t.node? q = some .directory) {node : FileNode}
    (free : t.node? (q ++ [name]) ≠ some .directory) : (t.put (q ++ [name]) node).IsTree := by
  intro p n present
  have apart : ∀ {p : Place}, t.node? p = some .directory → (t.put (q ++ [name]) node).node? p = some .directory := by
    intro p directory
    rw [node?_put t (by simp), if_neg]
    · exact directory
    · rintro rfl
      exact free directory
  rw [node?_put t (by simp)] at present
  split_ifs at present with same
  · rw [(List.append_inj' same rfl).1]
    exact apart above
  · exact apart (tree p n present)

/-- Nothing vanishes, and directories stay directories. -/
structure Grows (t t' : FileTree) : Prop where
  workingDirectory : t'.workingDirectory = t.workingDirectory
  directory : ∀ p, t.node? p = some .directory → t'.node? p = some .directory
  present : ∀ p, (t.node? p).isSome → (t'.node? p).isSome

theorem Grows.refl (t : FileTree) : Grows t t := ⟨rfl, fun _ => id, fun _ => id⟩

theorem Grows.trans (h : Grows t t') (h' : Grows t' t'') : Grows t t'' :=
  ⟨h'.workingDirectory.trans h.workingDirectory, fun p hp => h'.directory p (h.directory p hp),
    fun p hp => h'.present p (h.present p hp)⟩

/-- Putting something where no directory stands makes a tree grow. -/
theorem grows_put {place : Place} (h : place ≠ []) (node : FileNode) (free : t.node? place ≠ some .directory) :
    Grows t (t.put place node) := by
  refine ⟨rfl, fun p hp => ?_, fun p hp => ?_⟩
  · rw [node?_put t h]
    split_ifs with same
    · exact absurd (same ▸ hp) free
    · exact hp
  · rw [node?_put t h]
    split_ifs
    · rfl
    · exact hp

/-- At a place nothing has happened, or a directory has been made. -/
def Stays (t t' : FileTree) (p : Place) : Prop :=
  t'.node? p = t.node? p ∨ t.node? p = none ∧ t'.node? p = some .directory

theorem Stays.refl (t : FileTree) (p : Place) : Stays t t p := .inl rfl

theorem Stays.trans {p : Place} (h : Stays t t' p) (h' : Stays t' t'' p) : Stays t t'' p := by
  rcases h with h | ⟨none, made⟩
  · unfold Stays
    rw [← h]
    exact h'
  · rcases h' with h' | ⟨absurd, -⟩
    · exact .inr ⟨none, h'.trans made⟩
    · rw [made] at absurd
      cases absurd

/-- What stands at a place where no directory has been made is still there. -/
theorem Stays.eq_of_present {p : Place} (h : Stays t t' p) (present : (t.node? p).isSome) : t'.node? p = t.node? p := by
  rcases h with h | ⟨none, -⟩
  · exact h
  · rw [none] at present
    cases present

/-- Nothing has happened to a tree except that directories have been made, each in a directory. -/
structure AddsDirectories (t t' : FileTree) : Prop where
  workingDirectory : t'.workingDirectory = t.workingDirectory
  stays : ∀ p, Stays t t' p
  tree : t.IsTree → t'.IsTree

theorem AddsDirectories.refl (t : FileTree) : AddsDirectories t t := ⟨rfl, Stays.refl t, id⟩

theorem AddsDirectories.trans (h : AddsDirectories t t') (h' : AddsDirectories t' t'') : AddsDirectories t t'' :=
  ⟨h'.workingDirectory.trans h.workingDirectory, fun p => (h.stays p).trans (h'.stays p), h'.tree ∘ h.tree⟩

theorem AddsDirectories.grows (h : AddsDirectories t t') : Grows t t' := by
  refine ⟨h.workingDirectory, fun p hp => ?_, fun p hp => ?_⟩
  · rw [(h.stays p).eq_of_present (Option.isSome_of_eq_some hp)]
    exact hp
  · rw [(h.stays p).eq_of_present hp]
    exact hp

/-! ## Following steps -/

theorem follow_append (t : FileTree) (ys : List String) : ∀ (p : Place) (xs : List String),
    t.follow p (xs ++ ys) = t.follow p xs >>= fun q => t.follow q ys
  | _, [] => rfl
  | p, x :: xs => by
    simp only [List.cons_append, follow]
    split_ifs
    · rfl
    · exact follow_append t ys p xs
    · exact follow_append t ys p.dropLast xs
    · rfl
    · exact follow_append t ys (p ++ [x]) xs
    · rfl

/-- The place that a step names from another place. -/
def advance (p : Place) (step : String) : Place :=
  if isIdle step then p else if step = ".." then p.dropLast else p ++ [step]

theorem size_of_isIdle {step : String} (h : isIdle step = true) : step.utf8ByteSize ≤ maxNameSize := by
  simp only [isIdle, Bool.or_eq_true, beq_iff_eq] at h
  rcases h with rfl | rfl <;> decide

/-- One step: it needs a directory, and a name in it that may exist and does. -/
theorem follow_cons_eq_ok {p q : Place} {x : String} {xs : List String} :
    t.follow p (x :: xs) = .ok q ↔ t.node? p = some .directory ∧ x.utf8ByteSize ≤ maxNameSize ∧
      (isIdle x = false → x ≠ ".." → (t.node? (p ++ [x])).isSome) ∧ t.follow (advance p x) xs = .ok q := by
  rw [follow]
  by_cases directory : t.node? p = some .directory
  · rw [if_neg (not_not.2 directory)]
    by_cases idle : isIdle x = true
    · simp [advance, directory, idle, size_of_isIdle idle]
    · by_cases up : x = ".."
      · have names : isIdle ".." = false ∧ "..".utf8ByteSize ≤ maxNameSize := by decide
        simp [advance, directory, up, names]
      · by_cases long : maxNameSize < x.utf8ByteSize
        · simp [idle, up, long, Nat.not_le.2 long]
        · by_cases present : (t.node? (p ++ [x])).isSome
          · simp [advance, directory, idle, up, long, present, Nat.not_lt.1 long]
          · simp [idle, up, long, present]
  · simp [directory]

/-- The step to something in a directory. -/
theorem follow_name {p : Place} {name : String} (directory : t.node? p = some .directory)
    (notIdle : isIdle name = false) (notUp : name ≠ "..") (short : name.utf8ByteSize ≤ maxNameSize)
    (present : (t.node? (p ++ [name])).isSome) :
    t.follow p [name] = .ok (p ++ [name]) := by
  refine follow_cons_eq_ok.2 ⟨directory, short, fun _ _ => present, ?_⟩
  simp [advance, notIdle, notUp, follow]

/-- Steps that lead somewhere lead there also in a tree that has grown. -/
theorem Grows.follow (h : Grows t t') {p q : Place} {xs : List String} (run : t.follow p xs = .ok q) :
    t'.follow p xs = .ok q := by
  induction xs generalizing p with
  | nil => exact run
  | cons x xs ih =>
    obtain ⟨directory, short, present, rest⟩ := follow_cons_eq_ok.1 run
    exact follow_cons_eq_ok.2
      ⟨h.directory _ directory, short, fun name up => h.present _ (present name up), ih rest⟩

/-- Steps that lead somewhere lead to the place that they name. -/
theorem follow_eq_foldl {p q : Place} {xs : List String} (run : t.follow p xs = .ok q) : q = xs.foldl advance p := by
  induction xs generalizing p with
  | nil =>
    cases run
    rfl
  | cons x xs ih =>
    obtain ⟨-, -, -, rest⟩ := follow_cons_eq_ok.1 run
    exact ih rest

theorem size_of_follow {p q : Place} {xs : List String} (run : t.follow p xs = .ok q) :
    ∀ x ∈ xs, x.utf8ByteSize ≤ maxNameSize := by
  induction xs generalizing p with
  | nil => nofun
  | cons x xs ih =>
    obtain ⟨-, short, -, rest⟩ := follow_cons_eq_ok.1 run
    exact List.forall_mem_cons.2 ⟨short, ih rest⟩

/-- Something stands where steps lead, if the last of them does not go up. -/
theorem present_of_follow {p q : Place} {xs : List String} {x : String} (notUp : x ≠ "..")
    (run : t.follow p (xs ++ [x]) = .ok q) : (t.node? q).isSome := by
  rw [follow_append] at run
  obtain ⟨r, -, last⟩ := bind_eq_ok.1 run
  obtain ⟨directory, -, present, rest⟩ := follow_cons_eq_ok.1 last
  cases rest
  unfold advance
  split_ifs with idle
  · exact Option.isSome_of_eq_some directory
  · exact present (by simpa using idle) notUp

theorem foldl_advance_snoc {p : Place} {xs : List String} {name : String} (notIdle : isIdle name = false)
    (notUp : name ≠ "..") : (xs ++ [name]).foldl advance p = xs.foldl advance p ++ [name] := by
  simp [advance, notIdle, notUp]

/-- A place from which steps go down to a directory is one itself. -/
theorem IsTree.directory_above (tree : t.IsTree) {xs : List String} {p : Place} (down : ".." ∉ xs)
    (directory : t.node? (xs.foldl advance p) = some .directory) : t.node? p = some .directory := by
  induction xs generalizing p with
  | nil => exact directory
  | cons x xs ih =>
    rw [List.mem_cons, not_or] at down
    have next := ih down.2 directory
    unfold advance at next
    split_ifs at next with idle up
    · exact next
    · exact absurd up.symm down.1
    · exact tree p x (Option.isSome_of_eq_some next)

/-- Steps that go down to a directory lead there. -/
theorem IsTree.follow_of_directory (tree : t.IsTree) {xs : List String} {p : Place} (down : ".." ∉ xs)
    (short : ∀ x ∈ xs, x.utf8ByteSize ≤ maxNameSize) (directory : t.node? (xs.foldl advance p) = some .directory) :
    t.follow p xs = .ok (xs.foldl advance p) := by
  induction xs generalizing p with
  | nil => rfl
  | cons x xs ih =>
    have here := tree.directory_above down directory
    rw [List.mem_cons, not_or] at down
    obtain ⟨short, shorts⟩ := List.forall_mem_cons.1 short
    have next := tree.directory_above down.2 directory
    refine follow_cons_eq_ok.2 ⟨here, short, fun name up => ?_, ih down.2 shorts directory⟩
    simp only [advance, name, up, Bool.false_eq_true, if_false] at next
    exact Option.isSome_of_eq_some next

/-! ## Paths -/

theorem segments_ne_nil : ∀ cs : List Char, Path.segments cs ≠ []
  | [] => by simp [Path.segments]
  | c :: cs => by
    unfold Path.segments
    split_ifs
    · simp
    · split <;> simp

theorem steps_ne_nil (path : String) : steps path ≠ [] := by
  simp [steps, segments_ne_nil]

/-- The place that a path names, whether or not it leads there. -/
def aim (t : FileTree) (path : String) : Place := (steps path).foldl advance (t.start path)

theorem Grows.start (h : Grows t t') (path : String) : t'.start path = t.start path := by
  unfold FileTree.start
  rw [h.workingDirectory]

theorem Grows.aim (h : Grows t t') (path : String) : t'.aim path = t.aim path := by
  unfold FileTree.aim
  rw [h.start]

theorem locate_eq_ok {path : String} {p : Place} :
    t.locate path = .ok p ↔ isPath path = true ∧ t.follow (t.start path) (steps path) = .ok p := by
  unfold locate
  split_ifs with h <;> simp [h]

/-- A path that leads somewhere leads to the place that it aims at. -/
theorem aim_of_locate {path : String} {p : Place} (h : t.locate path = .ok p) : p = t.aim path :=
  follow_eq_foldl (locate_eq_ok.1 h).2

theorem Grows.locate (h : Grows t t') {path : String} {p : Place} (run : t.locate path = .ok p) :
    t'.locate path = .ok p := by
  rw [locate_eq_ok] at run ⊢
  rw [h.start]
  exact ⟨run.1, h.follow run.2⟩

theorem pathExists_eq_true {path : String} : t.pathExists path = true ↔ t.locate path = .ok (t.aim path) := by
  unfold pathExists
  cases h : t.locate path with
  | error => simp [Except.isOk, Except.toBool]
  | ok p =>
    rw [aim_of_locate h]
    simp [Except.isOk, Except.toBool]

/-- A path is read as the text of the file that it leads to. Neither a directory nor an unreadable file has one. -/
theorem read_eq_some {path text : String} :
    t.read path = some text ↔ ∃ place, t.locate path = .ok place ∧ t.node? place = some (.file text) := by
  unfold read
  cases t.locate path with
  | error => simp
  | ok place =>
    simp only [Except.ok.injEq, exists_eq_left']
    cases t.node? place with
    | none => simp
    | some node => cases node <;> simp

/-! ## Writing -/

/-- The directory and the name that steps lead to. -/
theorem target_eq_ok {path name n : String} {above : List String} {place : Place} :
    t.target path (name :: above) = .ok (place, n) ↔
      t.follow (t.start path) above.reverse = .ok place ∧ t.node? place = some .directory ∧ isIdle name = false ∧
        name ≠ ".." ∧ name.utf8ByteSize ≤ maxNameSize ∧ n = name := by
  simp only [target, bind_eq_ok, guard_eq_ok, Decidable.not_not, Bool.or_eq_true, not_or, beq_iff_eq,
    Bool.not_eq_true, Nat.not_lt, pure_eq_ok, Except.ok.injEq, Prod.mk.injEq]
  constructor
  · rintro ⟨q, leads, directory, ⟨notIdle, notUp⟩, short, rfl, rfl⟩
    exact ⟨leads, directory, notIdle, notUp, short, rfl⟩
  · rintro ⟨leads, directory, notIdle, notUp, short, rfl⟩
    exact ⟨place, leads, directory, ⟨notIdle, notUp⟩, short, rfl, rfl⟩

/-- The directory `q` and the name that a path leads to. -/
structure Entry (t : FileTree) (path : String) (above : List String) (name : String) (q : Place) : Prop where
  isPath : isPath path = true
  steps : FileTree.steps path = above ++ [name]
  leads : t.follow (t.start path) above = .ok q
  directory : t.node? q = some .directory
  notIdle : isIdle name = false
  notUp : name ≠ ".."
  short : name.utf8ByteSize ≤ maxNameSize

theorem Entry.aim {path name : String} {above : List String} {q : Place} (e : Entry t path above name q) :
    t.aim path = q ++ [name] := by
  unfold FileTree.aim
  rw [e.steps, foldl_advance_snoc e.notIdle e.notUp, ← follow_eq_foldl e.leads]

/-- Writing puts a file into a directory, where no directory stands. -/
theorem write_eq_ok {path text : String} : t.write path text = .ok t' ↔
    ∃ above name q, Entry t path above name q ∧ t.node? (t.aim path) ≠ some .directory ∧
      t' = t.put (t.aim path) (.file text) := by
  obtain ⟨above, name, cut⟩ : ∃ above name, steps path = above ++ [name] :=
    ⟨_, _, (List.dropLast_append_getLast (steps_ne_nil path)).symm⟩
  unfold write
  rw [cut, List.reverse_append, List.reverse_singleton, List.singleton_append]
  split_ifs with isPath
  · simp only [bind_eq_ok, Prod.exists, target_eq_ok, guard_eq_ok, List.reverse_reverse]
    constructor
    · rintro ⟨q, _, ⟨leads, directory, notIdle, notUp, short, rfl⟩, free, rest⟩
      have entry : Entry t path above _ q := ⟨isPath, cut, leads, directory, notIdle, notUp, short⟩
      cases rest
      rw [← entry.aim] at free ⊢
      exact ⟨above, _, q, entry, free, rfl⟩
    · rintro ⟨above', name', q, entry, free, rfl⟩
      obtain ⟨rfl, same⟩ : above = above' ∧ [name] = [name'] := List.append_inj' (cut.symm.trans entry.steps) rfl
      obtain rfl := List.singleton_inj.1 same
      rw [entry.aim] at free ⊢
      exact ⟨q, name, ⟨entry.leads, entry.directory, entry.notIdle, entry.notUp, entry.short, rfl⟩, free, rfl⟩
  · constructor
    · intro absurd
      cases absurd
    · rintro ⟨above', name', q, entry, -, -⟩
      exact absurd entry.isPath isPath

/-- What writing does to a tree. -/
structure Writes (t t' : FileTree) (path text : String) : Prop where
  free : t.node? (t.aim path) ≠ some .directory
  node : ∀ p, t'.node? p = if p = t.aim path then some (.file text) else t.node? p
  grows : Grows t t'
  tree : t.IsTree → t'.IsTree
  leads : t'.locate path = .ok (t.aim path)

theorem writes_of_write {path text : String} (h : t.write path text = .ok t') : Writes t t' path text := by
  obtain ⟨above, name, q, entry, free, rfl⟩ := write_eq_ok.1 h
  have node : ∀ p, (t.put (t.aim path) (.file text)).node? p =
      if p = t.aim path then some (.file text) else t.node? p := node?_put t (by simp [entry.aim]) _
  have grows : Grows t (t.put (t.aim path) (.file text)) := grows_put (by simp [entry.aim]) _ free
  refine ⟨free, node, grows, fun tree => ?_, locate_eq_ok.2 ⟨entry.isPath, ?_⟩⟩
  · rw [entry.aim] at free ⊢
    exact tree.put entry.directory free
  · have here := (node _).trans (if_pos rfl)
    have above := grows.directory q entry.directory
    rw [entry.steps, follow_append, grows.follow (grows.start path ▸ entry.leads), ok_bind]
    rw [entry.aim] at here above ⊢
    exact follow_name above entry.notIdle entry.notUp entry.short (Option.isSome_of_eq_some here)

/-- What stands where a path aims is found through it, provided that files can be written there and that what the path
goes up through is there. -/
theorem locate_of_present (tree : t.IsTree) {path text : String} {t₁ t₂ : FileTree}
    (write : t₁.write path text = .ok t₂) {front back : List String} {q : Place} (cut : steps path = front ++ back)
    (leads : t.follow (t.start path) front = .ok q) (down : ".." ∉ back) (nonempty : back ≠ [])
    (present : (t.node? (t.aim path)).isSome) : t.locate path = .ok (t.aim path) := by
  obtain ⟨above, name, q₁, entry, -, -⟩ := write_eq_ok.1 write
  obtain ⟨above', rfl⟩ : ∃ above', back = above' ++ [name] := by
    have last := congrArg List.getLast? (cut.symm.trans entry.steps)
    rw [List.getLast?_append_of_ne_nil _ nonempty, List.getLast?_concat] at last
    exact ⟨_, (List.dropLast_append_getLast? _ last).symm⟩
  -- names on the way may exist, since a path through them could be written to
  have short : ∀ x ∈ above', x.utf8ByteSize ≤ maxNameSize := by
    have same : above = front ++ above' := by
      have := cut.symm.trans entry.steps
      rw [← List.append_assoc] at this
      exact ((List.append_inj' this rfl).1).symm
    exact fun x hx => size_of_follow entry.leads x (same ▸ List.mem_append_right _ hx)
  have aim : t.aim path = above'.foldl advance q ++ [name] := by
    unfold FileTree.aim
    rw [cut, List.foldl_append, ← follow_eq_foldl leads, foldl_advance_snoc entry.notIdle entry.notUp]
  have directory : t.node? (above'.foldl advance q) = some .directory := tree _ name (aim ▸ present)
  rw [locate_eq_ok, cut, follow_append, leads, ok_bind, follow_append,
    tree.follow_of_directory (fun up => down (List.mem_append_left _ up)) short directory, ok_bind]
  rw [aim] at present ⊢
  exact ⟨entry.isPath, follow_name directory entry.notIdle entry.notUp entry.short present⟩

/-! ## Making directories -/

/-- Making a directory puts one where nothing was. -/
theorem mkdir_adds {path : String} (h : t.mkdir path = .ok t') : AddsDirectories t t' := by
  unfold mkdir at h
  split_ifs at h
  obtain ⟨⟨place, name⟩, target, rest⟩ := bind_eq_ok.1 h
  obtain ⟨free, rest⟩ := guard_eq_ok.1 rest
  cases rest
  refine ⟨rfl, fun p => ?_, fun tree => ?_⟩
  · unfold Stays
    rw [node?_put t (by simp)]
    split_ifs with same
    · exact .inr ⟨by simpa [same] using free, rfl⟩
    · exact .inl rfl
  · refine tree.put ?_ fun directory => free (Option.isSome_of_eq_some directory)
    cases names : (steps path).reverse.dropWhile (· == "") with
    | nil =>
      rw [names] at target
      cases target
    | cons n above =>
      rw [names] at target
      obtain ⟨-, directory, -⟩ := target_eq_ok.1 (by convert target)
      exact directory

theorem createChain_adds (t : FileTree) : ∀ paths : List String, AddsDirectories t (t.createChain paths).2
  | [] => .refl t
  | path :: above => by
    have parents := createChain_adds t above
    unfold createChain
    split_ifs
    · exact .refl t
    · -- made at once, or after those above it, or not at all
      split
      · exact mkdir_adds ‹_›
      · split
        · rename_i missing
          rw [missing] at parents
          exact parents
        · rename_i t₁ made
          rw [made] at parents
          split
          · exact parents.trans (mkdir_adds ‹_›)
          · exact parents
      · exact .refl t

/-- Making a directory with those above it adds directories, also when it fails. -/
theorem createDirectories_adds (t : FileTree) (path : String) : AddsDirectories t (t.createDirectories path).2 :=
  createChain_adds t _

/-! ## Directories that are there -/

theorem isDirectory_eq_true {path : String} : t.isDirectory path = true ↔
    t.locate path = .ok (t.aim path) ∧ t.node? (t.aim path) = some .directory := by
  unfold isDirectory
  cases h : t.locate path with
  | error => simp
  | ok p => simp [aim_of_locate h]

theorem Grows.isDirectory (h : Grows t t') {path : String} (directory : t.isDirectory path = true) :
    t'.isDirectory path = true := by
  rw [isDirectory_eq_true] at directory ⊢
  rw [h.aim]
  exact ⟨h.locate directory.1, h.directory _ directory.2⟩

/-- Empty steps stay in a directory. -/
theorem follow_empty {p : Place} {xs : List String} (directory : t.node? p = some .directory)
    (empty : ∀ x ∈ xs, x = "") : t.follow p xs = .ok p := by
  induction xs with
  | nil => rfl
  | cons x xs ih =>
    obtain ⟨rfl, rest⟩ := List.forall_mem_cons.1 empty
    exact follow_cons_eq_ok.2 ⟨directory, by decide, fun notIdle => absurd notIdle (by decide), ih rest⟩

/-- The steps of a path without the empty ones at its end, and these. -/
theorem exists_trailing (path : String) : ∃ trailing, (∀ x ∈ trailing, x = "") ∧
    steps path = ((steps path).reverse.dropWhile (· == "")).reverse ++ trailing := by
  refine ⟨((steps path).reverse.takeWhile (· == "")).reverse, fun x hx => ?_, ?_⟩
  · simpa using List.mem_takeWhile_imp (List.mem_reverse.1 hx)
  · rw [← List.reverse_append, List.takeWhile_append_dropWhile, List.reverse_reverse]

/-- A directory that has been made is there. -/
theorem isDirectory_of_mkdir {path : String} (h : t.mkdir path = .ok t') : t'.isDirectory path = true := by
  have grows := (mkdir_adds h).grows
  obtain ⟨trailing, empty, cut⟩ := exists_trailing path
  unfold mkdir at h
  split_ifs at h with isPath
  cases names : (steps path).reverse.dropWhile (· == "") with
  | nil =>
    rw [names] at h
    cases h
  | cons name above =>
    rw [names] at h cut
    obtain ⟨⟨q, n⟩, target, rest⟩ := bind_eq_ok.1 h
    obtain ⟨leads, directory, notIdle, notUp, short, rfl⟩ := target_eq_ok.1 target
    obtain ⟨-, rest⟩ := guard_eq_ok.1 rest
    cases rest
    have made : (t.put (q ++ [n]) .directory).node? (q ++ [n]) = some .directory := by
      rw [node?_put t (by simp), if_pos rfl]
    have located : (t.put (q ++ [n]) .directory).locate path = .ok (q ++ [n]) := by
      rw [locate_eq_ok, grows.start, cut, List.reverse_cons, follow_append, follow_append, grows.follow leads, ok_bind,
        follow_name (grows.directory q directory) notIdle notUp short (Option.isSome_of_eq_some made), ok_bind]
      exact ⟨isPath, follow_empty made empty⟩
    rw [isDirectory_eq_true, ← aim_of_locate located]
    exact ⟨located, made⟩

/-- A directory that is there cannot be made. -/
theorem mkdir_of_isDirectory {path : String} (h : t.isDirectory path = true) : t.mkdir path = .error .occupied := by
  obtain ⟨isPath, leads⟩ := locate_eq_ok.1 (isDirectory_eq_true.1 h).1
  obtain ⟨trailing, -, cut⟩ := exists_trailing path
  unfold mkdir
  rw [if_pos isPath]
  cases names : (steps path).reverse.dropWhile (· == "") with
  | nil => rfl
  | cons name above =>
    rw [cut, names, List.reverse_cons, List.append_assoc, follow_append] at leads
    obtain ⟨q, leads, last⟩ := bind_eq_ok.1 leads
    obtain ⟨directory, short, present, -⟩ := follow_cons_eq_ok.1 last
    by_cases idle : isIdle name = true ∨ name = ".."
    · have refused : t.target path (name :: above) = .error .occupied := by
        have idle' : (isIdle name || name == "..") = true := by simpa using idle
        simp only [target, leads, ok_bind, directory, idle', ne_eq, not_true_eq_false, if_false, if_true]
        rfl
      rw [refused]
      rfl
    · obtain ⟨notIdle, notUp⟩ := not_or.1 idle
      rw [Bool.not_eq_true] at notIdle
      rw [target_eq_ok.2 ⟨leads, directory, notIdle, notUp, short, rfl⟩, ok_bind]
      simp only [present notIdle notUp, if_true]
      rfl

/-- A directory is there after it has been made with those above it. The empty path stands for the directory at which
relative paths start, and nothing is made for it. -/
theorem isDirectory_of_createDirectories {path : String} (h : t.createDirectories path = (true, t')) :
    path = "" ∨ t'.isDirectory path = true := by
  unfold createDirectories createChain at h
  split_ifs at h with empty
  · exact .inl empty
  · right
    split at h
    · cases h
      exact isDirectory_of_mkdir ‹_›
    · split at h
      · cases h
      · split at h
        · cases h
          exact isDirectory_of_mkdir ‹_›
        · obtain ⟨directory, rfl⟩ := Prod.mk.inj h
          exact directory
    · obtain ⟨directory, rfl⟩ := Prod.mk.inj h
      exact directory

/-- Nothing is made for a directory that is there. -/
theorem createDirectories_of_isDirectory {path : String} (h : path = "" ∨ t.isDirectory path = true) :
    t.createDirectories path = (true, t) := by
  unfold createDirectories createChain
  split_ifs with empty
  · rfl
  · have directory := h.resolve_left empty
    rw [mkdir_of_isDirectory directory]
    simp only [directory]

end FileTree

end SchemaTypings

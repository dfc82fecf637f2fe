import SchemaTypings.Proofs.Computation
import SchemaTypings.Sdl.Grammar

/-!
# Names in schema texts

The types that a schema text defines have names of the schema language: letters, digits and `_`, not starting with a
digit.

- `Scan.step_named`, `scan_named`: what the scan takes for a name is one, step by step and for a whole text;
- `Yields P m`: a reader that is given such names only leaves such names only, and gives a result with the property `P`.
  There is a rule for each way to put readers together, and a lemma for each reader of the grammar;
- `isName_of_parse`: the result for documents.
-/

namespace SchemaTypings.Sdl

/-! ## Names -/

/-- Characters that spell a name. -/
def Spells (cs : List Char) : Prop := ∃ c rest, cs = c :: rest ∧ isNameStart c = true ∧ ∀ d ∈ rest, isNamePart d = true

/-- A name of the schema language. -/
def IsName (n : String) : Prop := Spells n.toList

/-- The text of a name token is a name. -/
def Token.WellNamed : Token → Prop
  | .name n => IsName n
  | _ => True

theorem isNamePart_of_isNameStart {c : Char} (h : isNameStart c = true) : isNamePart c = true := by
  simp only [isNameStart, isNamePart, Char.isAlphanum, Bool.or_eq_true] at h ⊢
  exact h.imp_left .inl

/-- A name with another character of a name behind it is a name. -/
theorem Spells.snoc {cs : List Char} {d : Char} (h : Spells cs) (hd : isNamePart d = true) : Spells (cs ++ [d]) := by
  obtain ⟨c, rest, rfl, start, parts⟩ := h
  refine ⟨c, rest ++ [d], rfl, start, ?_⟩
  intro e he
  rcases List.mem_append.1 he with he | he
  · exact parts e he
  · rwa [List.mem_singleton.1 he]

/-- All characters of a name may stand in one. -/
theorem IsName.parts {n : String} (h : IsName n) : ∀ c ∈ n.toList, isNamePart c = true := by
  obtain ⟨c, rest, spelled, start, parts⟩ := h
  rw [spelled]
  exact List.forall_mem_cons.2 ⟨isNamePart_of_isNameStart start, parts⟩

/-! ## The scan -/

namespace Scan

/-- Everything read as a name so far is one, and so is the name being read. -/
structure Named (s : Scan) : Prop where
  tokens : ∀ t ∈ s.tokens, t.WellNamed
  reading : ∀ read, s.mode = .name read → Spells read.reverse

variable {s : Scan}

theorem emit_named (h : ∀ t ∈ s.tokens, t.WellNamed) {t : Token} (ht : t.WellNamed) : (s.emit t).Named :=
  ⟨List.forall_mem_cons.2 ⟨ht, h⟩, nofun⟩

theorem stop_named (h : ∀ t ∈ s.tokens, t.WellNamed) : s.stop.Named :=
  ⟨List.forall_mem_cons.2 ⟨trivial, h⟩, nofun⟩

theorem endName_named (h : ∀ t ∈ s.tokens, t.WellNamed) {read : List Char} (hr : Spells read.reverse) :
    (s.endName read).Named :=
  emit_named h (show Spells (String.ofList read.reverse).toList by rwa [String.toList_ofList])

theorem start_named (h : ∀ t ∈ s.tokens, t.WellNamed) (c : Char) : (s.start c).Named := by
  unfold start
  split_ifs with ignored nameStart
  · exact ⟨h, nofun⟩
  · refine ⟨h, fun read e => ?_⟩
    injection e with e
    subst e
    exact ⟨c, [], rfl, nameStart, nofun⟩
  · exact ⟨h, nofun⟩
  · exact emit_named h trivial
  · exact ⟨List.forall_mem_cons.2 ⟨trivial, h⟩, nofun⟩
  · exact stop_named h
  · exact ⟨List.forall_mem_cons.2 ⟨trivial, h⟩, nofun⟩
  · exact ⟨h, nofun⟩
  · exact ⟨h, nofun⟩
  · exact ⟨h, nofun⟩
  · exact stop_named h

theorem inText_named (h : ∀ t ∈ s.tokens, t.WellNamed) (c : Char) : (s.inText c).Named := by
  unfold inText
  split_ifs
  · exact emit_named h trivial
  · exact ⟨h, nofun⟩
  · exact stop_named h
  · exact ⟨h, nofun⟩

theorem endBlock_named (h : ∀ t ∈ s.tokens, t.WellNamed) (read : List Char) : (s.endBlock read).Named := by
  unfold endBlock
  split_ifs
  · exact emit_named h trivial
  · exact emit_named h trivial

/-- One character keeps names names. -/
theorem step_named (h : s.Named) (c : Char) : (s.step c).Named := by
  unfold step
  split
  case h_1 => exact start_named h.tokens c
  case h_2 => split_ifs <;> [exact ⟨h.tokens, nofun⟩; exact h]
  case h_3 read mode =>
    split_ifs with part
    · refine ⟨h.tokens, fun longer e => ?_⟩
      injection e with e
      subst e
      rw [List.reverse_cons]
      exact (h.reading read mode).snoc part
    · exact start_named (endName_named h.tokens (h.reading read mode)).tokens c
  case h_4 =>
    split_ifs
    · exact ⟨h.tokens, nofun⟩
    · exact start_named (emit_named (t := .number) h.tokens trivial).tokens c
    · exact stop_named h.tokens
  case h_5 =>
    split_ifs <;> [exact stop_named h.tokens; exact ⟨h.tokens, nofun⟩; exact emit_named h.tokens trivial]
  case h_6 =>
    split_ifs
    · exact ⟨h.tokens, nofun⟩
    · exact inText_named h.tokens c
    · exact ⟨h.tokens, nofun⟩
    · exact start_named (emit_named (t := .text) h.tokens trivial).tokens c
  case h_7 => exact inText_named h.tokens c
  case h_8 => split_ifs <;> [exact ⟨h.tokens, nofun⟩; exact ⟨h.tokens, nofun⟩; exact stop_named h.tokens]
  case h_9 => split_ifs <;> [exact ⟨h.tokens, nofun⟩; exact ⟨h.tokens, nofun⟩; exact stop_named h.tokens]
  case h_10 =>
    split_ifs
    · exact ⟨h.tokens, nofun⟩
    · exact ⟨h.tokens, nofun⟩
    · exact ⟨h.tokens, nofun⟩
    · exact endBlock_named h.tokens _
  case h_11 => exact h

/-- A whole text keeps names names. -/
theorem foldl_named : ∀ (cs : List Char) {s : Scan}, s.Named → (cs.foldl step s).Named
  | [], _, h => h
  | c :: cs, _, h => foldl_named cs (step_named h c)

theorem finish_named (h : s.Named) : ∀ t ∈ s.finish, t.WellNamed := by
  unfold finish
  intro t ht
  rw [List.mem_reverse] at ht
  revert t
  split
  · exact h.tokens
  · exact h.tokens
  · exact h.tokens
  · rename_i read mode
    exact (endName_named h.tokens (h.reading read mode)).tokens
  · split_ifs
    · exact (emit_named (t := .number) h.tokens trivial).tokens
    · exact (stop_named h.tokens).tokens
  · exact (emit_named (t := .text) h.tokens trivial).tokens
  · exact (stop_named h.tokens).tokens

end Scan

/-- The name tokens of a text are names. -/
theorem scan_named (text : String) : ∀ t ∈ Token.scan text, t.WellNamed :=
  Scan.finish_named (Scan.foldl_named text.toList ⟨nofun, nofun⟩)

/-! ## Readers -/

namespace Reader

variable {α β : Type} {P : α → Prop} {Q : β → Prop}

/-- Given names, the reader leaves names, and its result has the property `P`. -/
def Yields (P : α → Prop) (m : Reader α) : Prop :=
  ∀ ts a rest, (∀ t ∈ ts, t.WellNamed) → m ts = .ok (a, rest) → P a ∧ ∀ t ∈ rest, t.WellNamed

/-- Given names, the reader leaves names. -/
abbrev Keeps (m : Reader α) : Prop := Yields (fun _ => True) m

theorem Yields.keeps {m : Reader α} (h : Yields P m) : Keeps m :=
  fun ts a rest hts run => ⟨trivial, (h ts a rest hts run).2⟩

theorem Yields.pure {a : α} (h : P a) : Yields P (Pure.pure a : Reader α) := by
  intro ts b rest hts run
  cases run
  exact ⟨h, hts⟩

theorem Yields.bind {m : Reader α} {k : α → Reader β} (hm : Yields P m) (hk : ∀ a, P a → Yields Q (k a)) :
    Yields Q (m >>= k) := by
  intro ts b rest hts run
  obtain ⟨⟨a, left⟩, first, second⟩ := bind_eq_ok.1 run
  obtain ⟨ha, hleft⟩ := hm ts a left hts first
  exact hk a ha left b rest hleft second

theorem Yields.ite {c : Prop} [Decidable c] {m n : Reader α} (hm : Yields P m) (hn : Yields P n) :
    Yields P (if c then m else n) := by
  split_ifs
  · exact hm
  · exact hn

theorem yields_refuse : Yields P (refuse : Reader α) := nofun

theorem keeps_expect (t : Token) : Keeps (expect t) := by
  intro ts a rest hts run
  unfold expect at run
  split at run
  · split_ifs at run
    cases run
    exact ⟨trivial, (List.forall_mem_cons.1 hts).2⟩
  · cases run

theorem keeps_accept (t : Token) : Keeps (accept t) := by
  intro ts a rest hts run
  unfold accept at run
  split at run
  · split_ifs at run
    · cases run
      exact ⟨trivial, (List.forall_mem_cons.1 hts).2⟩
    · cases run
      exact ⟨trivial, hts⟩
  · cases run
    exact ⟨trivial, hts⟩

theorem yields_name : Yields IsName name := by
  intro ts a rest hts run
  unfold name at run
  split at run
  · cases run
    exact List.forall_mem_cons.1 hts
  · cases run

theorem keeps_peek : Keeps peek := by
  intro ts a rest hts run
  cases run
  exact ⟨trivial, hts⟩

/-! ### Sequences -/

theorem yields_untilClose (close : Token) {item : Reader α} (h : Yields P item) :
    Yields (fun as => ∀ a ∈ as, P a) (untilClose close item) := by
  intro ts
  induction ts using untilClose.induct close item with
  | case1 =>
    intro as rest _ run
    rw [untilClose] at run
    cases run
  | case2 ts =>
    intro as rest hts run
    rw [untilClose, if_pos rfl] at run
    cases run
    exact ⟨nofun, (List.forall_mem_cons.1 hts).2⟩
  | case3 t ts other f failed =>
    intro as rest _ run
    rw [untilClose, if_neg other, failed] at run
    cases run
  | case4 t ts other a left first shorter ih =>
    intro as rest hts run
    rw [untilClose, if_neg other, first] at run
    simp only [shorter, if_true] at run
    obtain ⟨ha, hleft⟩ := h _ a left hts first
    cases more : untilClose close item left with
    | error f => rw [more] at run; cases run
    | ok result =>
      rw [more] at run
      cases run
      obtain ⟨has, hrest⟩ := ih result.1 result.2 hleft more
      exact ⟨List.forall_mem_cons.2 ⟨ha, has⟩, hrest⟩
  | case5 t ts other a left first longer =>
    intro as rest _ run
    rw [untilClose, if_neg other, first] at run
    simp only [longer, if_false] at run
    cases run

theorem yields_enclosed (opening close : Token) {item : Reader α} (h : Yields P item) :
    Yields (fun as => ∀ a ∈ as, P a) (enclosed opening close item) := by
  unfold enclosed
  refine (keeps_expect opening).bind fun _ _ => h.bind fun a ha => ?_
  exact (yields_untilClose close h).bind fun as has => .pure (List.forall_mem_cons.2 ⟨ha, has⟩)

theorem yields_enclosed? (opening close : Token) {item : Reader α} (h : Yields P item) :
    Yields (fun as => ∀ a ∈ as, P a) (enclosed? opening close item) := by
  unfold enclosed?
  exact keeps_peek.bind fun _ _ => .ite (yields_enclosed opening close h) (.pure nofun)

theorem yields_moreNames (separator : Token) : Yields (fun ns => ∀ n ∈ ns, IsName n) (moreNames separator) := by
  intro ts
  fun_induction moreNames separator ts with
  | case1 => intro ns rest _ run; cases run; exact ⟨nofun, nofun⟩
  | case2 n ts ih =>
    intro ns rest hts run
    obtain ⟨hn, hts⟩ := List.forall_mem_cons.1 (List.forall_mem_cons.1 hts).2
    cases more : moreNames separator ts with
    | error f => rw [more] at run; cases run
    | ok result =>
      rw [more] at run
      cases run
      obtain ⟨hns, hrest⟩ := ih result.1 result.2 hts more
      exact ⟨List.forall_mem_cons.2 ⟨hn, hns⟩, hrest⟩
  | case3 => intro ns rest _ run; cases run
  | case4 => intro ns rest hts run; cases run; exact ⟨nofun, hts⟩

theorem yields_names (separator : Token) : Yields (fun ns => ∀ n ∈ ns, IsName n) (names separator) := by
  unfold names
  refine (keeps_accept separator).bind fun _ _ => yields_name.bind fun n hn => ?_
  exact (yields_moreNames separator).bind fun ns hns => .pure (List.forall_mem_cons.2 ⟨hn, hns⟩)

/-! ### Values and types -/

theorem keeps_value (withVariables : Bool) : Keeps (value withVariables) := by
  have settled : ∀ (due : List Due) (ts rest : List Token), (∀ t ∈ ts, t.WellNamed) →
      settle withVariables due ts = .ok rest → ∀ t ∈ rest, t.WellNamed := by
    intro due ts rest hts run
    fun_induction settle withVariables due ts <;> grind
  intro ts a rest hts run
  unfold value at run
  cases left : settle withVariables [.value] ts with
  | error f => rw [left] at run; cases run
  | ok left' =>
    rw [left] at run
    cases run
    exact ⟨trivial, settled _ ts _ hts left⟩

theorem keeps_directives : Keeps directives := by
  intro ts
  fun_induction directives ts with
  | case1 n ts argument f failed => intro b rest _ run; cases run
  | case2 n ts argument as left arguments shorter ih =>
    intro b rest hts run
    have reads : Keeps argument :=
      yields_name.bind fun _ _ => (keeps_expect _).bind fun _ _ => keeps_value true
    obtain ⟨-, hleft⟩ := yields_enclosed? _ _ reads _ as left
      (List.forall_mem_cons.1 (List.forall_mem_cons.1 hts).2).2 arguments
    cases more : directives left with
    | error f => rw [more] at run; cases run
    | ok result =>
      rw [more] at run
      cases run
      exact ⟨trivial, (ih result.1 result.2 hleft more).2⟩
  | case3 => intro b rest _ run; cases run
  | case4 => intro b rest _ run; cases run
  | case5 => intro b rest hts run; cases run; exact ⟨trivial, hts⟩

theorem keeps_type : Keeps type := by
  have closed : ∀ (t u : TypeSyntax) (n : Nat) (ts rest : List Token), (∀ t ∈ ts, t.WellNamed) →
      closeLists t n ts = .ok (u, rest) → ∀ t ∈ rest, t.WellNamed := by
    intro t u n ts rest hts run
    fun_induction closeLists t n ts <;> grind
  have within : ∀ (u : TypeSyntax) (n : Nat) (ts rest : List Token), (∀ t ∈ ts, t.WellNamed) →
      typeWithin n ts = .ok (u, rest) → ∀ t ∈ rest, t.WellNamed := by
    intro u n ts rest hts run
    fun_induction typeWithin n ts <;> grind
  exact fun ts u rest hts run => ⟨trivial, within u 0 ts rest hts run⟩

/-! ### Definitions -/

theorem keeps_description : Keeps description := by
  intro ts a rest hts run
  unfold description at run
  split at run
  · cases run
    exact ⟨trivial, (List.forall_mem_cons.1 hts).2⟩
  · cases run
  · cases run
    exact ⟨trivial, hts⟩

theorem keeps_input : Keeps input := by
  unfold input
  refine keeps_description.bind fun _ _ => yields_name.bind fun _ _ => (keeps_expect _).bind fun _ _ => ?_
  refine keeps_type.bind fun _ _ => (keeps_accept _).bind fun _ _ => ?_
  exact .ite ((keeps_value false).bind fun _ _ => keeps_directives.bind fun _ _ => .pure trivial)
    (keeps_directives.bind fun _ _ => .pure trivial)

theorem keeps_arguments : Keeps arguments := (yields_enclosed? _ _ keeps_input).keeps

theorem keeps_field : Keeps field := by
  unfold field
  refine keeps_description.bind fun _ _ => yields_name.bind fun _ _ => keeps_arguments.bind fun _ _ => ?_
  refine (keeps_expect _).bind fun _ _ => keeps_type.bind fun _ _ => ?_
  exact keeps_directives.bind fun _ _ => .pure trivial

theorem yields_enumValue : Yields IsName enumValue := by
  unfold enumValue
  refine keeps_description.bind fun _ _ => yields_name.bind fun n hn => ?_
  exact keeps_directives.bind fun _ _ => .pure hn

theorem keeps_body {item : Reader α} (h : Keeps item) : Keeps (body item) := (yields_enclosed? _ _ h).keeps

theorem keeps_implements : Keeps implements := by
  unfold implements
  exact (keeps_accept _).bind fun _ _ => .ite (yields_names _).keeps (.pure trivial)

/-- A type definition has a name. -/
theorem yields_typeDefinition : Yields (fun d => IsName d.1.name) typeDefinition := by
  unfold typeDefinition
  refine yields_name.bind fun keyword _ => ?_
  split
  · refine yields_name.bind fun n hn => ?_
    exact keeps_directives.bind fun _ _ => .pure hn
  · refine yields_name.bind fun n hn => keeps_implements.bind fun _ _ => keeps_directives.bind fun _ _ => ?_
    exact (keeps_body keeps_field).bind fun _ _ => .pure hn
  · refine yields_name.bind fun n hn => keeps_implements.bind fun _ _ => keeps_directives.bind fun _ _ => ?_
    exact (keeps_body keeps_field).bind fun _ _ => .pure hn
  · refine yields_name.bind fun n hn => keeps_directives.bind fun _ _ => (keeps_accept _).bind fun _ _ => ?_
    refine .ite ((yields_names _).bind fun ms _ => .pure hn) ?_
    exact Yields.bind (P := fun _ => True) (.pure trivial) fun _ _ => .pure hn
  · refine yields_name.bind fun n hn => keeps_directives.bind fun _ _ => ?_
    exact (keeps_body yields_enumValue.keeps).bind fun _ _ => .pure hn
  · refine yields_name.bind fun n hn => keeps_directives.bind fun _ _ => ?_
    exact (keeps_body keeps_input).bind fun _ _ => .pure hn
  · exact yields_refuse

/-! ### Statements -/

/-- The type that a statement defines has a name. -/
def NamesType (s : Statement) : Prop := ∀ t, s.definition? = some t → IsName t.name

theorem keeps_directiveLocations : Keeps directiveLocations := by
  unfold directiveLocations
  refine keeps_peek.bind fun next _ => ?_
  have some : Keeps (do
      let ls ← names (.mark '|')
      if ls.all (· ∈ locations) then return () else refuse) :=
    (yields_names _).bind fun _ _ => .ite (.pure trivial) yields_refuse
  split
  · exact some
  · exact some
  · exact .pure trivial

theorem yields_directiveDefinition : Yields NamesType directiveDefinition := by
  unfold directiveDefinition
  refine (keeps_expect _).bind fun _ _ => (keeps_expect _).bind fun _ _ => yields_name.bind fun _ _ => ?_
  refine keeps_arguments.bind fun _ _ => (keeps_accept _).bind fun _ _ => (keeps_expect _).bind fun _ _ => ?_
  exact keeps_directiveLocations.bind fun _ _ => .pure nofun

theorem yields_schemaDefinition : Yields NamesType schemaDefinition := by
  unfold schemaDefinition
  refine (keeps_expect _).bind fun _ _ => keeps_directives.bind fun _ _ => (keeps_expect _).bind fun _ _ => ?_
  have operation : Keeps (do
      let n ← name
      expect (.mark ':')
      return (n, ← name)) :=
    yields_name.bind fun _ _ => (keeps_expect _).bind fun _ _ => yields_name.bind fun _ _ => .pure trivial
  refine (yields_untilClose _ operation).bind fun os _ => ?_
  split
  · exact .pure nofun
  · exact yields_refuse

theorem yields_statement : Yields NamesType statement := by
  unfold statement
  refine keeps_peek.bind fun next _ => ?_
  split
  · exact yields_schemaDefinition
  · refine (keeps_expect _).bind fun _ _ => yields_typeDefinition.bind fun d _ => ?_
    exact .ite (.pure nofun) yields_refuse
  · refine keeps_description.bind fun _ _ => keeps_peek.bind fun _ _ => .ite yields_directiveDefinition ?_
    refine yields_typeDefinition.bind fun d hd => .pure fun t e => ?_
    cases e
    exact hd

/-- The types that the statements of a text define have names. -/
theorem namesType_of_statements {ts : List Token} {ss : List Statement} (hts : ∀ t ∈ ts, t.WellNamed)
    (run : statements ts = .ok ss) : ∀ s ∈ ss, NamesType s := by
  fun_induction statements ts generalizing ss with
  | case1 => cases run; exact nofun
  | case2 => cases run
  | case3 t ts s left first shorter ih =>
    obtain ⟨hs, hleft⟩ := yields_statement _ s left hts first
    cases more : statements left with
    | error f => rw [more] at run; cases run
    | ok ss' =>
      rw [more] at run
      cases run
      exact List.forall_mem_cons.2 ⟨hs, ih hleft more⟩
  | case4 => cases run

end Reader

/-- The types that a schema text defines have names of the schema language. -/
theorem isName_of_parse {text : String} {d : Document} (h : Document.parse text = .ok d) :
    ∀ t ∈ d.types, IsName t.name := by
  intro t ht
  obtain ⟨ss, statements, rest⟩ := bind_eq_ok.1 h
  cases ss with
  | nil => cases rest
  | cons s ss =>
    cases rest
    obtain ⟨s', hs', defines⟩ := List.mem_filterMap.1 ht
    exact Reader.namesType_of_statements (scan_named text) statements s' hs' t defines

end SchemaTypings.Sdl

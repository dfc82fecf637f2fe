import SchemaTypings.Proofs.Readability
import SchemaTypings.Proofs.UnitTexts

/-!
# Units are read back from their text

What holds of types (`text_readable`) goes on to hold of declarations and of whole units: out of words, and of literals
and modules without quotes, no two of them are printed alike.

- `reads_block`: the body of an interface or a constant, which shows where it ends;
- `Declaration.reads`: a declaration before the end of its line;
- `Augmentation.reads`: interfaces that are indented line by line;
- `EntityUnit.eq_of_output`, `RootUnit.eq_of_output`: a unit is determined by its file.
-/

namespace SchemaTypings

namespace TypeScript

/-! ## Items that show where they end -/

section Items

variable {α : Type} {P : α → Prop} {write : α → String} {E : List Char → Prop} {a : α}

theorem ReadsAs.mono {F : List Char → Prop} (h : ReadsAs P write E a) (ends : ∀ r, F r → E r) : ReadsAs P write F a :=
  fun b r s hb hr hs same => h b r s hb (ends r hr) (ends s hs) same

/-- A text behind an item that may stand there shows where the item ends. -/
theorem ReadsAs.closed (h : ReadsAs P write E a) (close : String) (ends : ∀ r, E (close.toList ++ r)) :
    ReadsAs P (fun b => write b ++ close) (fun _ => True) a := by
  intro b r s hb _ _ same
  simp only [String.toList_append, List.append_assoc] at same
  obtain ⟨rfl, rest⟩ := h b _ _ hb (ends r) (ends s) same
  exact ⟨rfl, List.append_cancel_left rest⟩

/-- Items that show where they end, with the same text in front of each. -/
theorem ReadsAs.each (front : String) {F : List Char → Prop} (not_front : ∀ r, ¬F (front.toList ++ r)) {as : List α}
    (reads : ∀ a ∈ as, ReadsAs P write (fun _ => True) a) :
    ReadsAs (fun bs => ∀ b ∈ bs, P b) (fun bs => TypeScript.further front (bs.map write)) F as :=
  ReadsAs.further ⟨fun _ => trivial, fun _ _ => trivial, not_front⟩ reads

variable (write) in
/-- Items that show where they end, with nothing between them and nothing behind the last. -/
theorem ReadsAs.flatMap_inj (some : ∀ a, P a → write a ≠ "") : ∀ {as bs : List α},
    (∀ a ∈ as, ReadsAs P write (fun _ => True) a) → (∀ a ∈ as, P a) → (∀ b ∈ bs, P b) →
    (as.flatMap fun a => (write a).toList) = (bs.flatMap fun b => (write b).toList) → as = bs
  | [], [], _, _, _, _ => rfl
  | [], b :: bs, _, _, hb, same => by
    have none := (List.append_eq_nil_iff.1 (same.symm : (write b).toList ++ _ = [])).1
    exact absurd (String.toList_eq_nil_iff.1 none) (some b (hb b List.mem_cons_self))
  | a :: as, [], _, ha, _, same => by
    have none := (List.append_eq_nil_iff.1 (same : (write a).toList ++ _ = [])).1
    exact absurd (String.toList_eq_nil_iff.1 none) (some a (ha a List.mem_cons_self))
  | a :: as, b :: bs, reads, ha, hb, same => by
    obtain ⟨first, others⟩ := List.forall_mem_cons.1 reads
    obtain ⟨pb, pbs⟩ := List.forall_mem_cons.1 hb
    obtain ⟨rfl, rest⟩ := first b _ _ pb trivial trivial same
    rw [ReadsAs.flatMap_inj some others (List.forall_mem_cons.1 ha).2 pbs rest]

theorem further_eq_join (front : String) : ∀ ts : List String, further front ts = String.join (ts.map (front ++ ·))
  | [] => rfl
  | t :: ts => by rw [further, further_eq_join front ts, List.map_cons, String.join_cons]

/-- The text of the body of an interface or of a constant. -/
def block (ending : String) (texts : List String) : String :=
  if texts.isEmpty then "\x7b\x7d" else "\x7b\n" ++ indented ending texts ++ "\x7d"

theorem indented_eq_further (ending : String) (texts : List String) :
    indented ending texts = further "  " (texts.map (· ++ (ending ++ "\n"))) := by
  rw [further_eq_join, List.map_map, indented]
  simp only [Function.comp_def, String.append_assoc]

/-- A body starts with a brace. -/
theorem block_first (ending : String) (texts : List String) : ∃ r, (block ending texts).toList = '{' :: r := by
  unfold block
  split
  · exact ⟨['}'], rfl⟩
  · exact ⟨_, by simp only [String.toList_append]; rfl⟩

/-- A body ends with a brace. -/
theorem block_last (ending : String) (texts : List String) : ∃ r, block ending texts = r ++ "\x7d" := by
  unfold block
  split
  · exact ⟨"\x7b", rfl⟩
  · exact ⟨_, rfl⟩

/-- A body is read in one way if its items are, each before the end of its line. -/
theorem reads_block (ending : String) {as : List α}
    (reads : ∀ a ∈ as, ReadsAs P write (fun l => ∃ r, l = (ending ++ "\n").toList ++ r) a) :
    ReadsAs (fun bs => ∀ b ∈ bs, P b) (fun bs => block ending (bs.map write)) (fun _ => True) as := by
  have lines := ReadsAs.each "  " (F := fun l => ∃ r, l = '}' :: r) (by simp) fun a ha =>
    (reads a ha).closed (ending ++ "\n") fun r => ⟨r, rfl⟩
  intro bs r s hb _ _ same
  cases as with
  | nil =>
    cases bs with
    | nil => exact ⟨rfl, by simpa [block] using same⟩
    | cons b bs => simp [block] at same
  | cons a as =>
    cases bs with
    | nil => simp [block] at same
    | cons b bs =>
      simp only [block, List.map_cons, List.isEmpty_cons, Bool.false_eq_true, if_false, String.toList_append,
        List.append_assoc, List.append_cancel_left_eq] at same
      rw [← List.map_cons, ← List.map_cons, indented_eq_further, indented_eq_further, List.map_map,
        List.map_map] at same
      obtain ⟨items, rest⟩ := lines (b :: bs) _ _ hb ⟨r, rfl⟩ ⟨s, rfl⟩ same
      exact ⟨items, by simpa using rest⟩

end Items

/-- A word is read up to something that is in no word. -/
theorem reads_word {w : String} (hw : IsWord w) :
    ReadsAs IsWord id (fun r => ∀ c ∈ r.head?, isWordChar c = false) w := by
  intro v r s hv hr hs same
  obtain ⟨words, rest⟩ := append_inj_of_span hw.chars hv.chars hr hs same
  exact ⟨String.toList_inj.1 words, rest⟩

/-- A text without a character is read up to the character. -/
theorem append_inj_of_notMem {x : Char} {u v r s : List Char} (hu : x ∉ u) (hv : x ∉ v)
    (same : u ++ x :: r = v ++ x :: s) : u = v ∧ r = s := by
  have other : ∀ {w : List Char}, x ∉ w → ∀ c ∈ w, (c != x) = true := fun hw c hc => by
    simpa using ne_of_mem_of_not_mem hc hw
  obtain ⟨texts, rest⟩ := append_inj_of_span (other hu) (other hv) (by simp) (by simp) same
  exact ⟨texts, (List.cons.inj rest).2⟩

theorem TypeExpr.Legible.reads {t : TypeExpr} (h : t.Legible) :
    ReadsAs TypeExpr.Legible TypeExpr.text TypeExpr.Ends t :=
  (h.flat.reads h.spelled).1

attribute [ext] Interface TypeAlias Constant Import Augmentation

/-! ## Declarations -/

/-- An interface whose text can be read. -/
structure Interface.Legible (i : Interface) : Prop where
  name : IsWord i.name
  parent : ∀ p, i.parent = some p → p.Legible
  members : ∀ m ∈ i.members, TypeExpr.LegibleMember m

/-- A type alias whose text can be read. -/
structure TypeAlias.Legible (a : TypeAlias) : Prop where
  head : a.head.Legible
  type : a.type.Legible

/-- An entry of a constant that can be read: its expression stands on one line. -/
structure LegibleEntry (x : String × String) : Prop where
  key : IsWord x.1
  line : '\n' ∉ x.2.toList

/-- A constant whose text can be read. -/
structure Constant.Legible (c : Constant) : Prop where
  name : IsWord c.name
  entries : ∀ x ∈ c.entries, LegibleEntry x

/-- A declaration whose text can be read. -/
def Declaration.Legible : Declaration → Prop
  | .interface i => i.Legible
  | .alias a => a.Legible
  | .constant c => c.Legible

/-- The text of the parent of an interface. -/
def parentText : Option TypeExpr → String
  | some p => " extends " ++ p.text
  | none => ""

theorem Interface.text_eq (i : Interface) : i.text =
    "interface " ++ (i.name ++ (parentText i.parent ++ (" " ++ block ";" (i.members.map TypeExpr.memberText)))) := by
  obtain ⟨name, parent, members⟩ := i
  unfold text parentText block
  cases parent <;> cases members <;> simp only [List.map_nil, List.map_cons, List.isEmpty_nil, List.isEmpty_cons,
    if_true, Bool.false_eq_true, if_false, String.append_assoc] <;> rfl

/-- An interface is read in one way, whatever stands behind it. -/
theorem Interface.reads {i : Interface} (hi : i.Legible) :
    ReadsAs Interface.Legible Interface.text (fun _ => True) i := by
  have members := reads_block ";" fun m (hm : m ∈ i.members) =>
    (TypeExpr.reads_member (hi.members m hm) (hi.members m hm).value.reads).mono (by
      rintro _ ⟨r, rfl⟩
      exact .semicolon _)
  intro j r s hj _ _ same
  simp only [Interface.text_eq, String.toList_append, List.append_assoc, List.append_cancel_left_eq] at same
  have behind : ∀ (o : Option TypeExpr) (l : List Char),
      ∀ c ∈ ((parentText o).toList ++ (" ".toList ++ l)).head?, isWordChar c = false := by
    intro o l
    cases o <;> simp [parentText] <;> decide
  obtain ⟨name, same⟩ := reads_word hi.name j.name _ _ hj.name (behind _ _) (behind _ _) same
  obtain ⟨u, body⟩ := block_first ";" (i.members.map TypeExpr.memberText)
  obtain ⟨v, body'⟩ := block_first ";" (j.members.map TypeExpr.memberText)
  have parents : i.parent = j.parent ∧ (block ";" (i.members.map TypeExpr.memberText)).toList ++ r =
      (block ";" (j.members.map TypeExpr.memberText)).toList ++ s := by
    cases hp : i.parent with
    | none =>
      cases hq : j.parent with
      | none =>
        rw [hp, hq] at same
        exact ⟨rfl, List.append_cancel_left same⟩
      | some q =>
        rw [hp, hq, body] at same
        simp [parentText] at same
    | some p =>
      cases hq : j.parent with
      | none =>
        rw [hp, hq, body'] at same
        simp [parentText] at same
      | some q =>
        rw [hp, hq] at same
        simp only [parentText, String.toList_append, List.append_assoc, List.append_cancel_left_eq] at same
        have ends : ∀ l : List Char, TypeExpr.Ends (" ".toList ++ ('{' :: l)) := fun l => .block l
        obtain ⟨types, bodies⟩ := (hi.parent p hp).reads q _ _ (hj.parent q hq) (by rw [body]; exact ends _)
          (by rw [body']; exact ends _) same
        exact ⟨congrArg some types, List.append_cancel_left bodies⟩
  obtain ⟨items, rest⟩ := members j.members r s hj.members trivial trivial parents.2
  exact ⟨Interface.ext name parents.1 items, rest⟩

/-- What stands behind a declaration: the end of its line, or nothing. -/
def EndsLine (l : List Char) : Prop := l = [] ∨ ∃ r, l = '\n' :: r

/-- A type alias is read up to the end of its line. -/
theorem TypeAlias.reads {a : TypeAlias} (ha : a.Legible) : ReadsAs TypeAlias.Legible TypeAlias.text EndsLine a := by
  intro b r s hb hr hs same
  have ends : ∀ {l : List Char}, EndsLine l → TypeExpr.Ends l := by
    rintro l (rfl | ⟨l, rfl⟩)
    · exact .nil
    · exact .newline l
  simp only [TypeAlias.text, String.toList_append, List.append_assoc, List.append_cancel_left_eq] at same
  obtain ⟨head, same⟩ := ha.head.reads b.head _ _ hb.head (.equals _) (.equals _) same
  obtain ⟨type, rest⟩ := ha.type.reads b.type r s hb.type (ends hr) (ends hs) (by simpa using same)
  exact ⟨TypeAlias.ext head type, rest⟩

/-- The text of an entry of a constant. -/
def entryText (x : String × String) : String := x.1 ++ ": " ++ x.2

/-- An entry is read up to the end of its line. -/
theorem reads_entry {x : String × String} (hx : LegibleEntry x) :
    ReadsAs LegibleEntry entryText (fun l => ∃ r, l = ("," ++ "\n").toList ++ r) x := by
  rintro y _ _ hy ⟨r, rfl⟩ ⟨s, rfl⟩ same
  simp only [entryText, String.toList_append, List.append_assoc] at same
  obtain ⟨key, same⟩ := reads_word hx.key y.1 _ _ hy.key (by simp; decide) (by simp; decide) same
  have line : ∀ {z : String × String}, LegibleEntry z → '\n' ∉ z.2.toList ++ [','] := fun hz => by simp [hz.line]
  obtain ⟨expression, rest⟩ := append_inj_of_notMem (r := r) (s := s) (line hx) (line hy) (by simpa using same)
  exact ⟨Prod.ext key (String.toList_inj.1 (List.append_cancel_right expression)), by simpa using rest⟩

theorem Constant.text_eq (c : Constant) :
    c.text = "const " ++ (c.name ++ (" = " ++ block "," (c.entries.map entryText))) := by
  have body : c.text = "const " ++ c.name ++ " = " ++
      if c.entries.isEmpty then "\x7b\x7d" else "\x7b\n" ++ indented "," (c.entries.map entryText) ++ "\x7d" := rfl
  rw [body, block]
  cases c.entries <;> simp only [List.map_nil, List.map_cons, List.isEmpty_nil, List.isEmpty_cons, if_true,
    Bool.false_eq_true, if_false, String.append_assoc]

/-- A constant is read in one way, whatever stands behind it. -/
theorem Constant.reads {c : Constant} (hc : c.Legible) :
    ReadsAs Constant.Legible Constant.text (fun _ => True) c := by
  have entries := reads_block "," fun x (hx : x ∈ c.entries) => reads_entry (hc.entries x hx)
  intro d r s hd _ _ same
  simp only [Constant.text_eq, String.toList_append, List.append_assoc, List.append_cancel_left_eq] at same
  obtain ⟨name, same⟩ := reads_word hc.name d.name _ _ hd.name (by simp; decide) (by simp; decide) same
  obtain ⟨items, rest⟩ := entries d.entries r s hd.entries trivial trivial (List.append_cancel_left same)
  exact ⟨Constant.ext name items, rest⟩

/-- A declaration is read up to the end of its line. Its first letter tells its kind. -/
theorem Declaration.reads {d : Declaration} (hd : d.Legible) :
    ReadsAs Declaration.Legible Declaration.text EndsLine d := by
  intro e r s he hr hs same
  rcases d with i | a | c
  · rcases e with j | b | c
    · obtain ⟨rfl, rest⟩ := Interface.reads hd j r s he trivial trivial same
      exact ⟨rfl, rest⟩
    · simp [Declaration.text, Interface.text_eq, TypeAlias.text] at same
    · simp [Declaration.text, Interface.text_eq, Constant.text_eq] at same
  · rcases e with j | b | c
    · simp [Declaration.text, Interface.text_eq, TypeAlias.text] at same
    · obtain ⟨rfl, rest⟩ := TypeAlias.reads hd b r s he hr hs same
      exact ⟨rfl, rest⟩
    · simp [Declaration.text, TypeAlias.text, Constant.text_eq] at same
  · rcases e with j | b | d
    · simp [Declaration.text, Interface.text_eq, Constant.text_eq] at same
    · simp [Declaration.text, TypeAlias.text, Constant.text_eq] at same
    · obtain ⟨rfl, rest⟩ := Constant.reads hd d r s he trivial trivial same
      exact ⟨rfl, rest⟩

/-! ## Imports -/

/-- An import whose text can be read. -/
structure Import.Legible (i : Import) : Prop where
  names : ∀ n ∈ i.names, IsWord n
  module : '\'' ∉ i.module.toList

/-- The text of an import behind its first word. -/
def Import.body (i : Import) : String :=
  "\x7b " ++ (separated ", " i.names ++ (" \x7d from '" ++ (i.module ++ "'")))

theorem Import.text_eq (i : Import) : i.text = "import " ++ i.body := by
  simp only [text, body, quoted, String.append_assoc]
  rfl

/-- An import shows where it ends. -/
theorem Import.reads {i : Import} (hi : i.Legible) : ReadsAs Import.Legible Import.body (fun _ => True) i := by
  intro j r s hj _ _ same
  have delimited : Delimits IsWord id ", " (fun l => ∀ c ∈ l.head?, isWordChar c = false)
      fun l => ∃ u, l = " \x7d from '".toList ++ u :=
    { between := by simp; decide
      behind := by
        rintro _ ⟨u, rfl⟩
        simp
        decide
      not_separator := by simp
      not_item := by
        rintro w hw r ⟨u, h⟩
        obtain ⟨c, cs, first, word⟩ := hw.first
        rw [id, first] at h
        obtain rfl := (List.cons.inj h).1
        cases word }
  simp only [body, String.toList_append, List.append_assoc, List.append_cancel_left_eq] at same
  have names := ReadsAs.list delimited hi.names fun w hw => reads_word (hi.names w hw)
  simp only [List.map_id] at names
  obtain ⟨names, same⟩ := names j.names _ _ hj.names ⟨_, rfl⟩ ⟨_, rfl⟩ same
  obtain ⟨module, rest⟩ := append_inj_of_notMem hi.module hj.module (List.append_cancel_left same)
  exact ⟨Import.ext names (String.toList_inj.1 module), rest⟩

/-! ## Augmentations -/

/-- Lines, each with its ending. -/
def endedLines (ls : List String) : List Char := ls.flatMap fun l => l.toList ++ ['\n']

/-- The lines of a text that does not end in an empty line, behind the beginning of a line. -/
theorem endedLines_splitLines (current cs : List Char) : '\r' ∉ cs → (cs = [] → current ≠ []) →
    cs.getLast? ≠ some '\n' → endedLines (Text.splitLines current cs) = current.reverse ++ cs ++ ['\n'] := by
  fun_induction Text.splitLines current cs with
  | case1 current empty =>
    intro _ some _
    exact absurd (List.isEmpty_iff.1 empty) (some rfl)
  | case2 current _ => simp [endedLines]
  | case3 current cs ih =>
    intro plain
    exact absurd List.mem_cons_self plain
  | case4 current cs ih =>
    intro plain _ last
    have more : cs ≠ [] := by
      rintro rfl
      exact last rfl
    have rest := ih (fun h => plain (List.mem_cons_of_mem _ h)) (fun h => absurd h more)
      (by rwa [List.getLast?_cons_of_ne_nil more] at last)
    rw [endedLines] at rest ⊢
    rw [List.flatMap_cons, rest]
    simp
  | case5 current c cs _ _ ih =>
    intro plain _ last
    rw [ih (fun h => plain (List.mem_cons_of_mem _ h)) (fun _ => List.cons_ne_nil _ _) ?_]
    · simp
    · intro h
      cases cs with
      | nil => cases h
      | cons d ds => exact last (by rwa [List.getLast?_cons_cons])

/-- No line has a line break in it. -/
theorem newline_notMem_splitLines (current cs : List Char) (h : '\n' ∉ current) :
    ∀ l ∈ Text.splitLines current cs, '\n' ∉ l.toList := by
  fun_induction Text.splitLines current cs with
  | case1 => simp
  | case2 => simpa using h
  | case3 current cs ih => simpa [h] using ih
  | case4 current cs ih => simpa [h] using ih
  | case5 current c cs _ other ih => exact ih (by simp [h, Ne.symm other])

/-- An augmentation whose text can be read. Its interfaces end their lines in one way. -/
structure Augmentation.Legible (a : Augmentation) : Prop where
  module : '\'' ∉ a.module.toList
  interfaces : ∀ i ∈ a.interfaces, i.Legible
  lines : ∀ i ∈ a.interfaces, '\r' ∉ i.text.toList

/-- The lines of an augmentation between its braces. -/
def Augmentation.lines (a : Augmentation) : List String :=
  a.interfaces.flatMap fun i => Text.splitLines [] i.text.toList

theorem Interface.endedLines_text {i : Interface} (plain : '\r' ∉ i.text.toList) :
    endedLines (Text.splitLines [] i.text.toList) = (i.text ++ "\n").toList := by
  have last : i.text.toList.getLast? = some '}' := by
    obtain ⟨body, ends⟩ := block_last ";" (i.members.map TypeExpr.memberText)
    rw [text_eq, ends]
    simp only [← String.append_assoc, String.toList_append]
    exact List.getLast?_concat
  have some : i.text.toList ≠ [] := by
    intro none
    rw [none] at last
    cases last
  rw [endedLines_splitLines [] _ plain (fun none => absurd none some) (by simp [last])]
  simp

/-- The lines of interfaces tell the interfaces. -/
theorem Augmentation.interfaces_eq {a b : Augmentation} (ha : a.Legible) (hb : b.Legible) (same : a.lines = b.lines) :
    a.interfaces = b.interfaces := by
  have text : ∀ {c : Augmentation}, c.Legible →
      endedLines c.lines = c.interfaces.flatMap fun i => (i.text ++ "\n").toList := by
    intro c hc
    rw [endedLines, Augmentation.lines, List.flatMap_assoc]
    exact List.flatMap_congr fun i hi => Interface.endedLines_text (hc.lines i hi)
  refine ReadsAs.flatMap_inj (fun i : Interface => i.text ++ "\n") (fun i _ => ?_)
    (fun i hi => (Interface.reads (ha.interfaces i hi)).closed "\n" fun _ => trivial) ha.interfaces hb.interfaces ?_
  · simp [Interface.text_eq]
  · rw [← text ha, ← text hb, same]

/-- A line is read up to its end. -/
theorem reads_line {l : String} (hl : '\n' ∉ l.toList) :
    ReadsAs (fun m : String => '\n' ∉ m.toList) (· ++ ("" ++ "\n")) (fun _ => True) l := by
  intro m r s hm _ _ same
  simp only [String.toList_append, List.append_assoc] at same
  obtain ⟨lines, rest⟩ := append_inj_of_notMem hl hm (by simpa using same)
  exact ⟨String.toList_inj.1 lines, rest⟩

theorem Augmentation.newline_notMem_lines (a : Augmentation) : ∀ l ∈ a.lines, '\n' ∉ l.toList := by
  intro l hl
  obtain ⟨i, -, hl⟩ := List.mem_flatMap.1 hl
  exact newline_notMem_splitLines [] _ List.not_mem_nil l hl

theorem Augmentation.text_eq (a : Augmentation) : a.text =
    "declare module " ++ ("'" ++ (a.module ++ ("'" ++ (" \x7b\n" ++ (indented "" a.lines ++ "\x7d"))))) := by
  change "declare module " ++ quoted a.module ++ " \x7b\n" ++ indented "" a.lines ++ "\x7d" = _
  simp only [quoted, String.append_assoc]

/-- An augmentation is read in one way, up to its closing brace. -/
theorem Augmentation.reads {a : Augmentation} (ha : a.Legible) :
    ReadsAs Augmentation.Legible Augmentation.text (fun _ => True) a := by
  have lines := ReadsAs.each "  " (F := fun l => ∃ r, l = '}' :: r) (by simp) fun l hl =>
    reads_line (a.newline_notMem_lines l hl)
  intro b r s hb _ _ same
  simp only [text_eq, indented_eq_further, String.toList_append, List.append_assoc, List.append_cancel_left_eq] at same
  obtain ⟨module, same⟩ := append_inj_of_notMem ha.module hb.module same
  obtain ⟨lines, rest⟩ := lines b.lines ('}' :: r) ('}' :: s) b.newline_notMem_lines ⟨r, rfl⟩ ⟨s, rfl⟩
    (by simpa using same)
  exact ⟨Augmentation.ext (String.toList_inj.1 module) (interfaces_eq ha hb lines), (List.cons.inj rest).2⟩

end TypeScript

open TypeScript

attribute [ext] EntityUnit RootUnit

/-! ## Units -/

theorem lines_imports : ∀ is : List Import,
    lines (is.map Import.text) = further "import " (is.map fun i => i.body ++ "\n")
  | [] => rfl
  | i :: is => by
    rw [List.map_cons, lines_cons, lines_imports is, List.map_cons, further, Import.text_eq]
    simp only [String.append_assoc]

theorem paragraphs_exported : ∀ ds : List Declaration,
    paragraphs (ds.map Declaration.exported) = further "\nexport " (ds.map fun d => d.text ++ "\n")
  | [] => rfl
  | d :: ds => by
    rw [List.map_cons, paragraphs_cons, paragraphs_exported ds, List.map_cons, further, Declaration.exported]
    simp only [← String.append_assoc]
    rfl

/-- The lines of imports are read up to an empty line, or to the end. -/
theorem reads_imports {is : List Import} (h : ∀ i ∈ is, i.Legible) :
    ReadsAs (fun js : List Import => ∀ j ∈ js, j.Legible) (fun js => lines (js.map Import.text)) EndsLine is := by
  have reads := ReadsAs.each "import " (F := EndsLine) (by simp [EndsLine]) fun i hi =>
    (Import.reads (h i hi)).closed "\n" fun _ => trivial
  simpa only [lines_imports] using reads

/-- The paragraphs of declarations are read up to the end. -/
theorem reads_paragraphs {ds : List Declaration} (h : ∀ d ∈ ds, d.Legible) :
    ReadsAs (fun es : List Declaration => ∀ e ∈ es, e.Legible) (fun es => paragraphs (es.map Declaration.exported))
      (· = []) ds := by
  have reads := ReadsAs.each "\nexport " (F := (· = [])) (by simp) fun d hd =>
    (Declaration.reads (h d hd)).closed "\n" fun r => .inr ⟨r, rfl⟩
  simpa only [paragraphs_exported] using reads

namespace EntityUnit

/-- An entity unit whose text can be read. -/
structure Legible (u : EntityUnit) : Prop where
  imports : ∀ i ∈ u.imports, i.Legible
  declarations : ∀ d ∈ u.declarations, d.Legible

/-- What stands in a unit behind its imports. -/
def rest (u : EntityUnit) : String :=
  (if u.declaresContext then "\ntype " ++ contextPlaceholder ++ " = any\n" else "") ++
    paragraphs (u.declarations.map Declaration.exported)

theorem endsLine_rest (u : EntityUnit) : EndsLine u.rest.toList := by
  rw [rest, paragraphs_exported]
  cases u.declaresContext <;> cases u.declarations <;> simp [EndsLine, further]

/-- The declaration of the context is not exported. -/
theorem paragraphs_ne_context (ds : List Declaration) (r : List Char) :
    (paragraphs (ds.map Declaration.exported)).toList ≠
      ("\ntype " ++ contextPlaceholder ++ " = any\n").toList ++ r := by
  rw [paragraphs_exported]
  cases ds <;> simp [further]

/-- The rest of a unit tells whether it declares the context, and what it exports. -/
theorem rest_readable {u v : EntityUnit} (hu : u.Legible) (hv : v.Legible) (same : u.rest.toList = v.rest.toList) :
    u.declaresContext = v.declaresContext ∧ u.declarations = v.declarations := by
  have declarations : (paragraphs (u.declarations.map Declaration.exported)).toList =
      (paragraphs (v.declarations.map Declaration.exported)).toList → u.declarations = v.declarations := fun same =>
    (reads_paragraphs hu.declarations v.declarations [] [] hv.declarations rfl rfl (by rw [same])).1
  unfold rest at same
  cases hc : u.declaresContext <;> cases hd : v.declaresContext <;>
    simp only [hc, hd, Bool.false_eq_true, if_true, if_false, String.toList_append] at same
  · exact ⟨rfl, declarations same⟩
  · exact absurd same (paragraphs_ne_context _ _)
  · exact absurd same.symm (paragraphs_ne_context _ _)
  · exact ⟨rfl, declarations (List.append_cancel_left same)⟩

/-- An entity unit is determined by its file. -/
theorem eq_of_output {u v : EntityUnit} (hu : u.Legible) (hv : v.Legible) (same : u.output = v.output) : u = v := by
  have path : unitPath u.entity = unitPath v.entity := congrArg OutputUnit.path same
  have content : ∀ w : EntityUnit, w.text = doNotEdit ++ "\n" ++ (lines (w.imports.map Import.text) ++ w.rest) := by
    intro w
    simp only [text, rest, String.append_assoc]
  have texts : u.text = v.text := congrArg OutputUnit.content same
  rw [← String.toList_inj] at texts
  simp only [content, String.toList_append, List.append_cancel_left_eq] at texts
  obtain ⟨imports, rests⟩ := reads_imports hu.imports v.imports _ _ hv.imports u.endsLine_rest v.endsLine_rest texts
  obtain ⟨context, declarations⟩ := rest_readable hu hv rests
  exact EntityUnit.ext (unitPath_injective path) imports context declarations

set_option maxRecDepth 2000 in
example : text ⟨"Note", [⟨["GraphQLResolveInfo"], "graphql"⟩, ⟨["Note", "Draft"], "./models"⟩], true,
    [.interface ⟨"TextArgs", none, [⟨"size", .ident "number", true⟩]⟩,
      .alias ⟨.generic "Text" (.ident "T"),
        .function [.required "args" (.ident "TextArgs")] (.oneOf [.ident "T", .null])⟩,
      .interface ⟨"NoteResolvers", some (.ident "Base"), []⟩,
      .constant ⟨"NoteDefaultResolvers", [("text", "(parent: Note) => parent.text")]⟩]⟩ =
    "// Code generated by typed-resolvers. DO NOT EDIT.\n\nimport \x7b GraphQLResolveInfo \x7d from 'graphql'\n" ++
    "import \x7b Note, Draft \x7d from './models'\n\ntype Context = any\n\n" ++
    "export interface TextArgs \x7b\n  size?: number;\n\x7d\n\n" ++
    "export type Text<T> = (args: TextArgs) => T | null\n\n" ++
    "export interface NoteResolvers extends Base \x7b\x7d\n\n" ++
    "export const NoteDefaultResolvers = \x7b\n  text: (parent: Note) => parent.text,\n\x7d\n" :=
  rfl

end EntityUnit

namespace RootUnit

/-- A root unit whose text can be read. -/
structure Legible (u : RootUnit) : Prop where
  imports : ∀ i ∈ u.imports, i.Legible
  map : u.map.Legible
  augmentation : ∀ a, u.augmentation = some a → a.Legible

/-- A root unit is determined by its file. -/
theorem eq_of_output {u v : RootUnit} (hu : u.Legible) (hv : v.Legible) (same : u.output = v.output) : u = v := by
  have content : ∀ w : RootUnit, w.text = editable ++ "\n" ++ (lines (w.imports.map Import.text) ++
      ("\n" ++ ("export " ++ (w.map.text ++ ("\n" ++ paragraphs (w.augmentation.toList.map Augmentation.text)))))) := by
    intro w
    rw [text, paragraphs_cons, Declaration.exported, Declaration.text]
    simp only [String.append_assoc]
  have texts : u.text = v.text := congrArg OutputUnit.content same
  rw [← String.toList_inj] at texts
  simp only [content, String.toList_append, List.append_assoc, List.append_cancel_left_eq] at texts
  have ends : ∀ r : List Char, EndsLine ("\n".toList ++ r) := fun r => .inr ⟨r, rfl⟩
  obtain ⟨imports, texts⟩ := reads_imports hu.imports v.imports _ _ hv.imports (ends _) (ends _) texts
  rw [List.append_cancel_left_eq, List.append_cancel_left_eq] at texts
  obtain ⟨map, texts⟩ := Interface.reads hu.map v.map _ _ hv.map trivial trivial texts
  have augmentation : u.augmentation = v.augmentation := by
    cases ha : u.augmentation with
    | none =>
      cases hb : v.augmentation with
      | none => rfl
      | some b => simp [ha, hb, paragraphs] at texts
    | some a =>
      cases hb : v.augmentation with
      | none => simp [ha, hb, paragraphs] at texts
      | some b =>
        rw [ha, hb] at texts
        have blocks : a.text.toList ++ "\n".toList = b.text.toList ++ "\n".toList := by
          simpa [paragraphs] using texts
        rw [(Augmentation.reads (hu.augmentation a ha) b _ _ (hv.augmentation b hb) trivial trivial blocks).1]
  exact RootUnit.ext imports map augmentation

set_option maxRecDepth 2000 in
example : text (.build ⟨[.object ⟨"Note", [], []⟩], .standard⟩ ⟨true, true⟩) =
    "// Generated by typed-resolvers. This file is only written when it does not exist yet,\n// edit it freely.\n\n" ++
    "import \x7b NoteResolvers \x7d from './Note'\n\n" ++
    "export interface Resolvers \x7b\n  Note: NoteResolvers;\n\x7d\n\n" ++
    "declare module 'graphql-tools' \x7b\n  interface IResolvers extends Resolvers \x7b\x7d\n\x7d\n" :=
  rfl

end RootUnit

end SchemaTypings

import SchemaTypings.Proofs.Unions

/-!
# Types are read back from their text

The text of a type that the constructors make, out of words and literals without quotes, belongs to no other such type.

- `Legible`: a type whose text can be read, with a rule for each way to build one (`Legible.union`, `Legible.function`
  and so on);
- `ReadsAs`: a text determines its value and where it ends, given what may stand behind it. There is a rule for lists
  with separators (`ReadsAs.list`), for heads (`reads_head`) and for members (`reads_member`);
- `Flat.reads`: the induction over types. A type is read before whatever can stand behind a type (`Ends`), and as a
  member of a union also before the next member (`EndsAlternative`). The first character of a text tells the kind of
  type (`Atom.opening`), and the second one tells a function from a union that starts with a function
  (`function_text_ne`);
- `text_readable`: types with the same text are the same, and functions in unions keep to themselves.
-/

namespace SchemaTypings.TypeScript

/-! ## Words -/

/-- A letter, a digit or `_`. -/
def isWordChar (c : Char) : Bool := c.isAlphanum || c == '_'

/-- A word: letters, digits and `_`, at least one of them. -/
structure IsWord (text : String) : Prop where
  nonempty : text ≠ ""
  chars : ∀ c ∈ text.toList, isWordChar c = true

instance (text : String) : Decidable (IsWord text) :=
  decidable_of_iff (text ≠ "" ∧ text.toList.all isWordChar = true)
    ⟨fun h => ⟨h.1, List.all_eq_true.1 h.2⟩, fun h => ⟨h.1, List.all_eq_true.2 h.2⟩⟩

/-- A word starts with a character of a word. -/
theorem IsWord.first {w : String} (h : IsWord w) : ∃ c cs, w.toList = c :: cs ∧ isWordChar c = true := by
  cases e : w.toList with
  | nil => exact absurd (String.toList_eq_nil_iff.1 e) h.nonempty
  | cons c cs => exact ⟨c, cs, rfl, h.chars c (by simp [e])⟩

theorem IsWord.append {u v : String} (hu : IsWord u) (hv : IsWord v) : IsWord (u ++ v) where
  nonempty h := hu.nonempty (String.append_eq_empty_iff.1 h).1
  chars c hc := by
    rw [String.toList_append] at hc
    exact (List.mem_append.1 hc).elim (hu.chars c) (hv.chars c)

/-- A character that is in no word is not in a text that is one. -/
theorem IsWord.notMem {w : String} (h : IsWord w) {c : Char} (hc : isWordChar c = false) : c ∉ w.toList := by
  intro mem
  rw [h.chars c mem] at hc
  cases hc

/-- A head made of a word, or of a literal without a quote in it. -/
inductive TypeName.Spelled : TypeName → Prop
  | ident {name : String} (word : IsWord name) : Spelled (.ident name)
  | literal {text : String} (unquoted : ∀ c ∈ text.toList, c ≠ '\'') : Spelled (.literal text)

/-- Two texts made of characters of one kind, each up to its end, are the same if they start alike. -/
theorem append_inj_of_span {p : Char → Bool} : ∀ {u v r s : List Char}, (∀ c ∈ u, p c = true) → (∀ c ∈ v, p c = true) →
    (∀ c ∈ r.head?, p c = false) → (∀ c ∈ s.head?, p c = false) → u ++ r = v ++ s → u = v ∧ r = s
  | [], [], _, _, _, _, _, _, h => ⟨rfl, h⟩
  | [], c :: v, r, s, _, hv, hr, _, h => by
    have absurd : p c = false := hr c (by simp [show r = c :: (v ++ s) from h])
    rw [hv c List.mem_cons_self] at absurd
    cases absurd
  | c :: u, [], r, s, hu, _, _, hs, h => by
    have absurd : p c = false := hs c (by simp [show s = c :: (u ++ r) from h.symm])
    rw [hu c List.mem_cons_self] at absurd
    cases absurd
  | c :: u, d :: v, r, s, hu, hv, hr, hs, h => by
    obtain ⟨rfl, rest⟩ := List.cons.inj h
    obtain ⟨rfl, rfl⟩ := append_inj_of_span (List.forall_mem_cons.1 hu).2 (List.forall_mem_cons.1 hv).2 hr hs rest
    exact ⟨rfl, rfl⟩

/-! ## Texts that are read in one way -/

section Reading

variable {α : Type} {P : α → Prop} {write : α → String} {E F : List Char → Prop}

/-- The text of `a` is read in one way: before a rest with the property `E` it starts like the text of no other value
with the property `P`, and the rest is the same. -/
def ReadsAs (P : α → Prop) (write : α → String) (E : List Char → Prop) (a : α) : Prop :=
  ∀ b r s, P b → E r → E s → (write a).toList ++ r = (write b).toList ++ s → a = b ∧ r = s

/-- Texts with a separator in front of each. -/
def further (separator : String) : List String → String
  | [] => ""
  | t :: ts => separator ++ t ++ further separator ts

theorem separated_cons (separator t : String) : ∀ ts : List String,
    separated separator (t :: ts) = t ++ further separator ts
  | [] => by simp [separated, further]
  | u :: us => by simp [separated, further, separated_cons separator u us, String.append_assoc]

/-- Items with a separator in front of each can be told apart: the separator may stand behind an item, and so may what
ends the list, which does not look like a separator. -/
structure Separates (separator : String) (E F : List Char → Prop) : Prop where
  between : ∀ r, E (separator.toList ++ r)
  behind : ∀ r, F r → E r
  not_separator : ∀ r, ¬ F (separator.toList ++ r)

/-- Items can be told apart in a list with separators between them. What ends the list does not look like an item
either. -/
structure Delimits (P : α → Prop) (write : α → String) (separator : String) (E F : List Char → Prop) : Prop
    extends Separates separator E F where
  not_item : ∀ a, P a → ∀ r, ¬ F ((write a).toList ++ r)

variable {separator : String}

/-- What comes behind an item of a list may stand behind an item. -/
theorem Separates.further (d : Separates separator E F) {r : List Char} (h : F r) :
    ∀ as : List α, E ((further separator (as.map write)).toList ++ r)
  | [] => by simpa [TypeScript.further] using d.behind r h
  | a :: as => by
    simp only [List.map_cons, TypeScript.further, String.toList_append, List.append_assoc]
    exact d.between _

/-- Items with a separator in front of each are read in one way. -/
theorem ReadsAs.further (d : Separates separator E F) : ∀ {as : List α}, (∀ a ∈ as, ReadsAs P write E a) →
    ReadsAs (fun bs => ∀ b ∈ bs, P b) (fun bs => further separator (bs.map write)) F as
  | [], _, [], r, s, _, _, _, h => ⟨rfl, by simpa using h⟩
  | [], _, b :: bs, r, s, _, hr, _, h => by
    simp [TypeScript.further] at h
    exact absurd (h ▸ hr) (d.not_separator _)
  | a :: as, _, [], r, s, _, _, hs, h => by
    simp [TypeScript.further] at h
    exact absurd (h ▸ hs) (d.not_separator _)
  | a :: as, reads, b :: bs, r, s, hb, hr, hs, h => by
    simp only [List.map_cons, TypeScript.further, String.toList_append, List.append_assoc,
      List.append_cancel_left_eq] at h
    obtain ⟨first, others⟩ := List.forall_mem_cons.1 reads
    obtain ⟨pb, pbs⟩ := List.forall_mem_cons.1 hb
    obtain ⟨rfl, rest⟩ := first b _ _ pb (d.further hr as) (d.further hs bs) h
    obtain ⟨rfl, rfl⟩ := ReadsAs.further d others bs r s pbs hr hs rest
    exact ⟨rfl, rfl⟩

/-- A list is read in one way if its items are. -/
theorem ReadsAs.list (d : Delimits P write separator E F) {as : List α} (ha : ∀ a ∈ as, P a)
    (reads : ∀ a ∈ as, ReadsAs P write E a) :
    ReadsAs (fun bs => ∀ b ∈ bs, P b) (fun bs => separated separator (bs.map write)) F as := by
  intro bs r s hb hr hs h
  cases as with
  | nil =>
    cases bs with
    | nil => exact ⟨rfl, by simpa using h⟩
    | cons b bs =>
      simp [separated_cons, separated] at h
      exact absurd (h ▸ hr) (d.not_item b (hb b List.mem_cons_self) _)
  | cons a as =>
    cases bs with
    | nil =>
      simp [separated_cons, separated] at h
      exact absurd (h ▸ hs) (d.not_item a (ha a List.mem_cons_self) _)
    | cons b bs =>
      simp only [List.map_cons, separated_cons, String.toList_append, List.append_assoc] at h
      obtain ⟨first, others⟩ := List.forall_mem_cons.1 reads
      obtain ⟨pb, pbs⟩ := List.forall_mem_cons.1 hb
      obtain ⟨rfl, rest⟩ := first b _ _ pb (d.toSeparates.further hr as) (d.toSeparates.further hs bs) h
      obtain ⟨rfl, rfl⟩ := ReadsAs.further d.toSeparates others bs r s pbs hr hs rest
      exact ⟨rfl, rfl⟩

end Reading

namespace TypeExpr

/-! ## Legible types -/

/-- The identifiers and keys in the type are words, and the literals hold no quotes. -/
inductive Spelled : TypeExpr → Prop
  | named {n : TypeName} {ps : List TypeExpr} (head : n.Spelled) (params : ∀ p ∈ ps, Spelled p) :
    Spelled (.named n ps)
  | object {ms : List (Member TypeExpr)} (keys : ∀ m ∈ ms, IsWord m.key) (values : ∀ m ∈ ms, Spelled m.value) :
    Spelled (.object ms)
  | function {ps : List (Member TypeExpr)} {r : TypeExpr} (keys : ∀ p ∈ ps, IsWord p.key)
    (params : ∀ p ∈ ps, Spelled p.value) (result : Spelled r) : Spelled (.function ps r)
  | oneOf {ts : List TypeExpr} (members : ∀ t ∈ ts, Spelled t) : Spelled (.oneOf ts)

/-- The members of a spelled type as a union are spelled. -/
theorem Spelled.alternatives {t a : TypeExpr} (h : Spelled t) (ha : a ∈ t.alternatives) : Spelled a := by
  cases h with
  | oneOf members => exact members a ha
  | named head params => obtain rfl := List.mem_singleton.1 ha; exact .named head params
  | object keys values => obtain rfl := List.mem_singleton.1 ha; exact .object keys values
  | function keys params result => obtain rfl := List.mem_singleton.1 ha; exact .function keys params result

/-- A union of spelled types is spelled. -/
theorem Spelled.union {ts : List TypeExpr} (h : ∀ t ∈ ts, Spelled t) : Spelled (.union ts) := by
  have parts : ∀ a ∈ ts.flatMap TypeExpr.alternatives, Spelled a := by
    intro a ha
    obtain ⟨t, ht, ha⟩ := List.mem_flatMap.1 ha
    exact (h t ht).alternatives ha
  apply union_cases
  · exact .named (.ident (by decide)) (by simp)
  · exact parts
  · exact fun as _ _ members => .oneOf fun a ha => parts a (members a ha)

/-- A type whose text can be read. -/
structure Legible (t : TypeExpr) : Prop where
  flat : Flat t
  spelled : Spelled t

/-- A type that can stand in a union as a member of it. -/
structure Atom (t : TypeExpr) : Prop extends Legible t where
  single : t.alternatives = [t]

/-- A member of a type as a union is an atom. -/
theorem Legible.atom {t a : TypeExpr} (h : Legible t) (ha : a ∈ t.alternatives) : Atom a := by
  obtain ⟨flat, single⟩ := h.flat.alternatives ha
  exact ⟨⟨flat, h.spelled.alternatives ha⟩, single⟩

/-- A member whose text can be read. -/
structure LegibleMember (m : Member TypeExpr) : Prop where
  key : IsWord m.key
  value : Legible m.value

theorem Legible.params {n : TypeName} {ps : List TypeExpr} (h : Legible (.named n ps)) :
    n.Spelled ∧ ∀ p ∈ ps, Legible p := by
  cases h.flat with
  | named _ flat =>
    cases h.spelled with
    | named head spelled => exact ⟨head, fun p hp => ⟨flat p hp, spelled p hp⟩⟩

theorem Legible.members {ms : List (Member TypeExpr)} (h : Legible (.object ms)) : ∀ m ∈ ms, LegibleMember m := by
  cases h.flat with
  | object flat =>
    cases h.spelled with
    | object keys spelled => exact fun m hm => ⟨keys m hm, flat m hm, spelled m hm⟩

theorem Legible.signature {ps : List (Member TypeExpr)} {r : TypeExpr} (h : Legible (.function ps r)) :
    (∀ p ∈ ps, LegibleMember p) ∧ Legible r := by
  cases h.flat with
  | function flat result =>
    cases h.spelled with
    | function keys spelled result' => exact ⟨fun p hp => ⟨keys p hp, flat p hp, spelled p hp⟩, result, result'⟩

theorem Legible.union {ts : List TypeExpr} (h : ∀ t ∈ ts, Legible t) : Legible (.union ts) :=
  ⟨.union fun t ht => (h t ht).flat, .union fun t ht => (h t ht).spelled⟩

theorem Legible.named {head : TypeName} {ps : List TypeExpr} (spelled : head.Spelled) (params : ∀ p ∈ ps, Legible p) :
    Legible (.named head ps) :=
  ⟨.named head fun p hp => (params p hp).flat, .named spelled fun p hp => (params p hp).spelled⟩

theorem Legible.ident {n : String} (h : IsWord n) : Legible (.ident n) := .named (.ident h) nofun

theorem Legible.literal {n : String} (h : IsWord n) : Legible (.literal n) :=
  .named (.literal fun _ hc => ne_of_mem_of_not_mem hc (h.notMem rfl)) nofun

theorem Legible.generic {n : String} {t : TypeExpr} (hn : IsWord n) (h : Legible t) : Legible (.generic n t) :=
  .named (.ident hn) (List.forall_mem_singleton.2 h)

theorem Legible.or {s t : TypeExpr} (hs : Legible s) (ht : Legible t) : Legible (s.or t) :=
  .union (List.forall_mem_cons.2 ⟨hs, List.forall_mem_singleton.2 ht⟩)

theorem Legible.object {ms : List (Member TypeExpr)} (h : ∀ m ∈ ms, LegibleMember m) : Legible (.object ms) :=
  ⟨.object fun m hm => (h m hm).value.flat, .object (fun m hm => (h m hm).key) fun m hm => (h m hm).value.spelled⟩

theorem Legible.function {ps : List (Member TypeExpr)} {r : TypeExpr} (params : ∀ p ∈ ps, LegibleMember p)
    (result : Legible r) : Legible (.function ps r) :=
  ⟨.function (fun p hp => (params p hp).value.flat) result.flat,
    .function (fun p hp => (params p hp).key) (fun p hp => (params p hp).value.spelled) result.spelled⟩

theorem Legible.member {t : TypeExpr} (h : Legible t) {key : String} (word : IsWord key) {optional : Bool} :
    LegibleMember ⟨key, t, optional⟩ := ⟨word, h⟩

/-- A function with another result. -/
theorem Legible.withResult {ps : List (Member TypeExpr)} {r q : TypeExpr} (h : Legible (.function ps r))
    (hq : Legible q) : Legible (.function ps q) := .function h.signature.1 hq

/-! ## Texts of types -/

/-- The text of a type as a member of a union. -/
def alternativeText (t : TypeExpr) : String := enclosedIn t t.text

theorem texts_eq_map : ∀ ts : List TypeExpr, texts ts = ts.map text
  | [] => rfl
  | t :: ts => by rw [texts, texts_eq_map ts, List.map_cons]

theorem alternativeTexts_eq_map : ∀ ts : List TypeExpr, alternativeTexts ts = ts.map alternativeText
  | [] => rfl
  | t :: ts => by rw [alternativeTexts, alternativeTexts_eq_map ts, List.map_cons, alternativeText]

theorem memberTexts_eq_map : ∀ ms : List (Member TypeExpr), memberTexts ms = ms.map memberText
  | [] => rfl
  | m :: ms => by rw [memberTexts, memberTexts_eq_map ms, List.map_cons]

theorem text_function (ps : List (Member TypeExpr)) (r : TypeExpr) :
    (TypeExpr.function ps r).text = "(" ++ separated ", " (ps.map memberText) ++ ") => " ++ r.text := by
  rw [text, memberTexts_eq_map]

theorem alternativeText_named (head : TypeName) (ps : List TypeExpr) :
    (TypeExpr.named head ps).alternativeText = head.text ++ angled (ps.map text) := by
  rw [alternativeText, enclosedIn, text, texts_eq_map]
  nofun

theorem alternativeText_object (ms : List (Member TypeExpr)) :
    (TypeExpr.object ms).alternativeText = braced (ms.map memberText) := by
  rw [alternativeText, enclosedIn, text, memberTexts_eq_map]
  nofun

theorem alternativeText_function (ps : List (Member TypeExpr)) (r : TypeExpr) :
    (TypeExpr.function ps r).alternativeText = "(" ++ (TypeExpr.function ps r).text ++ ")" := rfl

/-- Apart from functions, the text of a type is that of its members as a union. -/
theorem text_eq_alternatives : ∀ {t : TypeExpr}, (∀ ps r, t ≠ .function ps r) →
    t.text = separated " | " (t.alternatives.map alternativeText)
  | .named .., _ => rfl
  | .object .., _ => rfl
  | .function .., h => absurd rfl (h _ _)
  | .oneOf ts, _ => by rw [text, alternativeTexts_eq_map, alternatives]

/-! ## Where texts start and end -/

/-- What a text can start with. -/
inductive Opening where
  | word
  | quote
  | brace
  | paren
  | none
  deriving DecidableEq

/-- What a character starts. -/
def Opening.of (c : Char) : Opening :=
  if isWordChar c then .word
  else if c = '\'' then .quote
  else if c = '{' then .brace
  else if c = '(' then .paren
  else .none

/-- What the text of a type starts with when it stands in a union. -/
def opening : TypeExpr → Opening
  | .named (.ident _) _ => .word
  | .named (.literal _) _ => .quote
  | .object _ => .brace
  | .function .. => .paren
  | .oneOf _ => .none

/-- The first character of a member of a union tells what kind of type it is. -/
theorem Atom.opening {t : TypeExpr} (h : Atom t) :
    ∃ c cs, t.alternativeText.toList = c :: cs ∧ Opening.of c = t.opening ∧ t.opening ≠ .none := by
  cases h.spelled with
  | named head params =>
    cases head with
    | ident word =>
      obtain ⟨c, cs, first, isWord⟩ := word.first
      exact ⟨c, _, by rw [alternativeText_named, TypeName.text, String.toList_append, first]; rfl,
        by simp [Opening.of, isWord, TypeExpr.opening], nofun⟩
    | literal =>
      refine ⟨'\'', _, by rw [alternativeText_named, TypeName.text, quoted]; simp; rfl, rfl, nofun⟩
  | @object ms keys values =>
    cases ms with
    | nil => exact ⟨'{', ['}'], rfl, rfl, nofun⟩
    | cons m ms =>
      refine ⟨'{', _, by rw [alternativeText_object]; simp [braced]; rfl, rfl, nofun⟩
  | function keys params result =>
    refine ⟨'(', _, by rw [alternativeText_function]; simp; rfl, rfl, nofun⟩
  | oneOf members =>
    exact absurd h.single oneOf_not_single

/-- What can stand behind a type: nothing, or the end or the next item of the list that the type stands in, or what
goes on in a declaration. -/
inductive Ends : List Char → Prop
  | nil : Ends []
  | comma (r : List Char) : Ends (',' :: r)
  | paren (r : List Char) : Ends (')' :: r)
  | angle (r : List Char) : Ends ('>' :: r)
  | brace (r : List Char) : Ends (' ' :: '}' :: r)
  | semicolon (r : List Char) : Ends (';' :: r)
  | newline (r : List Char) : Ends ('\n' :: r)
  | equals (r : List Char) : Ends (' ' :: '=' :: r)
  | block (r : List Char) : Ends (' ' :: '{' :: r)

/-- What can stand behind a member of a union. -/
inductive EndsAlternative : List Char → Prop
  | last {r : List Char} (h : Ends r) : EndsAlternative r
  | next (r : List Char) : EndsAlternative (' ' :: '|' :: r)

/-- Nothing that stands behind a type starts a type. -/
theorem EndsAlternative.opening {r : List Char} (h : EndsAlternative r) : ∀ c ∈ r.head?, Opening.of c = .none := by
  rcases h with (_ | _ | _ | _ | _ | _ | _ | _ | _) | _ <;> simp <;> decide

theorem EndsAlternative.not_word {r : List Char} (h : EndsAlternative r) : ∀ c ∈ r.head?, isWordChar c = false := by
  rcases h with (_ | _ | _ | _ | _ | _ | _ | _ | _) | _ <;> simp <;> decide

/-- The members of a union can be told apart. -/
theorem alternatives_delimited : Delimits Atom alternativeText " | " EndsAlternative Ends where
  between r := .next _
  behind r h := .last h
  not_separator r h := by
    simp at h
    cases h
  not_item a ha r h := by
    obtain ⟨c, cs, first, kind, known⟩ := ha.opening
    rw [first] at h
    exact known (kind ▸ (EndsAlternative.last h).opening c rfl)

/-! ## Reading heads and members -/

/-- The head of a named type is read up to where its word ends, or to its second quote. -/
theorem reads_head {m : TypeName} (hm : m.Spelled) :
    ReadsAs TypeName.Spelled TypeName.text (fun r => ∀ c ∈ r.head?, isWordChar c = false) m := by
  -- a word does not start with the quote of a literal
  have apart {a b : String} {r s : List Char} (word : IsWord a) : a.toList ++ r ≠ (quoted b).toList ++ s := by
    intro same
    obtain ⟨c, cs, first, isWord⟩ := word.first
    simp only [first, quoted, String.toList_append, List.cons_append] at same
    obtain ⟨rfl, -⟩ := List.cons.inj same
    exact absurd isWord (by decide)
  intro n r s hn hr hs same
  cases hm with
  | ident word =>
    cases hn with
    | ident word' =>
      obtain ⟨names, rest⟩ := append_inj_of_span word.chars word'.chars hr hs same
      exact ⟨by rw [String.toList_inj.1 names], rest⟩
    | literal => exact absurd same (apart word)
  | literal unquoted =>
    cases hn with
    | ident word => exact absurd same.symm (apart word)
    | literal unquoted' =>
      simp only [TypeName.text, quoted, String.toList_append, List.append_assoc, List.append_cancel_left_eq] at same
      obtain ⟨texts, rest⟩ := append_inj_of_span (p := (· != '\'')) (by simpa using unquoted) (by simpa using unquoted')
        (by simp) (by simp) same
      exact ⟨by rw [String.toList_inj.1 texts], by simpa using rest⟩

theorem memberText_eq : ∀ m : Member TypeExpr,
    memberText m = m.key ++ (optionalMark m.optional ++ (": " ++ m.value.text))
  | ⟨_, _, _⟩ => by simp only [memberText, String.append_assoc]

/-- A member is read in one way if its type is. -/
theorem reads_member {m : Member TypeExpr} (hm : LegibleMember m) (value : ReadsAs Legible text Ends m.value) :
    ReadsAs LegibleMember memberText Ends m := by
  intro n r s hn hr hs same
  simp only [memberText_eq, String.toList_append, List.append_assoc] at same
  have mark : ∀ (o : Bool) (l : List Char), ∀ c ∈ ((optionalMark o).toList ++ (": ".toList ++ l)).head?,
      isWordChar c = false := by
    intro o l
    cases o <;> simp [optionalMark] <;> decide
  obtain ⟨key, rest⟩ := append_inj_of_span hm.key.chars hn.key.chars (mark _ _) (mark _ _) same
  have tail : m.optional = n.optional ∧ m.value.text.toList ++ r = n.value.text.toList ++ s := by
    revert rest
    cases m.optional <;> cases n.optional <;> simp [optionalMark]
  obtain ⟨types, left⟩ := value n.value r s hn.value hr hs tail.2
  refine ⟨?_, left⟩
  obtain ⟨k, v, o⟩ := m
  obtain ⟨k', v', o'⟩ := n
  rw [Member.mk.injEq]
  exact ⟨String.toList_inj.1 key, types, tail.1⟩

/-- The text of a type starts with something that starts types. -/
theorem Legible.opening_text {t : TypeExpr} (h : Legible t) :
    ∃ c cs, t.text.toList = c :: cs ∧ Opening.of c ≠ .none := by
  by_cases function : ∃ ps r, t = .function ps r
  · obtain ⟨ps, r, rfl⟩ := function
    refine ⟨'(', _, by rw [text_function]; simp; rfl, nofun⟩
  · cases members : t.alternatives with
    | nil => exact absurd members h.flat.alternatives_ne_nil
    | cons a as =>
      obtain ⟨c, cs, first, kind, known⟩ := (h.atom (show a ∈ t.alternatives by simp [members])).opening
      refine ⟨c, cs ++ (further " | " (as.map alternativeText)).toList, ?_, kind ▸ known⟩
      rw [text_eq_alternatives fun ps r e => function ⟨ps, r, e⟩, members, List.map_cons, separated_cons,
        String.toList_append, first, List.cons_append]

section Lists

variable {F : List Char → Prop} (ends : ∀ r, F r → Ends r) (comma : ∀ r, ¬ F (',' :: r))

include ends comma

/-- Members can be told apart in a list that ends like a type. -/
theorem members_delimited : Delimits LegibleMember memberText ", " Ends F where
  between r := .comma _
  behind := ends
  not_separator r := by simpa using comma _
  not_item m hm r h := by
    obtain ⟨c, cs, first, isWord⟩ := hm.key.first
    simp only [memberText_eq, String.toList_append, List.append_assoc, first, List.cons_append] at h
    have := (EndsAlternative.last (ends _ h)).not_word c rfl
    simp [isWord] at this

/-- Types can be told apart in a list that ends like a type. -/
theorem types_delimited : Delimits Legible text ", " Ends F where
  between r := .comma _
  behind := ends
  not_separator r := by simpa using comma _
  not_item t ht r h := by
    obtain ⟨c, cs, first, known⟩ := ht.opening_text
    rw [first] at h
    exact known ((EndsAlternative.last (ends _ h)).opening c rfl)

end Lists

/-! ## Reading types -/

/-- Behind the parenthesis that a function starts with, no other parenthesis opens. -/
theorem function_text_chars {ps : List (Member TypeExpr)} (hps : ∀ p ∈ ps, IsWord p.key) (r : TypeExpr) :
    ∃ c cs, (TypeExpr.function ps r).text.toList = '(' :: c :: cs ∧ c ≠ '(' := by
  rw [text_function]
  cases ps with
  | nil =>
    refine ⟨')', _, by simp [separated]; rfl, by decide⟩
  | cons p ps =>
    obtain ⟨c, cs, first, isWord⟩ := (hps p List.mem_cons_self).first
    refine ⟨c, _, by simp [separated_cons, memberText_eq, first]; rfl, ?_⟩
    rintro rfl
    exact absurd isWord (by decide)

/-- A function and a type of another kind have different texts. A union that starts with a function has a second
parenthesis. -/
theorem function_text_ne {ps : List (Member TypeExpr)} {q t : TypeExpr} {r s : List Char}
    (hps : ∀ p ∈ ps, IsWord p.key) (ht : Legible t) (other : ∀ ps r, t ≠ .function ps r) :
    (TypeExpr.function ps q).text.toList ++ r ≠ t.text.toList ++ s := by
  intro same
  obtain ⟨c, cs, begins, not_paren⟩ := function_text_chars hps q
  cases members : t.alternatives with
  | nil => exact ht.flat.alternatives_ne_nil members
  | cons a as =>
    have atom := ht.atom (show a ∈ t.alternatives by simp [members])
    obtain ⟨d, ds, first, kind, -⟩ := atom.opening
    rw [text_eq_alternatives other, members, List.map_cons, separated_cons, begins, String.toList_append, first,
      List.append_assoc, List.cons_append, List.cons_append] at same
    obtain ⟨rfl, tails⟩ := List.cons.inj same
    cases atom.spelled with
    | @function qs u keys params result =>
      obtain ⟨e, es, inner, -⟩ := function_text_chars keys u
      rw [alternativeText_function, String.toList_append, String.toList_append, inner] at first
      obtain ⟨-, rfl⟩ := List.cons.inj first
      exact not_paren (List.cons.inj tails).1
    | @named m ps =>
      cases m <;> cases kind
    | _ => cases kind

/-- A type other than a function is read in one way if its members as a union are. -/
theorem reads_alternatives {t : TypeExpr} (ht : Legible t) (other : ∀ ps r, t ≠ .function ps r)
    (reads : ∀ a ∈ t.alternatives, ReadsAs Atom alternativeText EndsAlternative a) : ReadsAs Legible text Ends t := by
  intro u r s hu hr hs same
  by_cases function : ∃ ps q, u = .function ps q
  · obtain ⟨ps, q, rfl⟩ := function
    cases hu.spelled with
    | function keys => exact absurd same.symm (function_text_ne keys ht other)
  · rw [text_eq_alternatives other, text_eq_alternatives fun ps q e => function ⟨ps, q, e⟩] at same
    obtain ⟨members, rest⟩ := ReadsAs.list alternatives_delimited (fun a => ht.atom) reads u.alternatives r s
      (fun a => hu.atom) hr hs same
    exact ⟨ht.flat.eq_of_alternatives hu.flat members, rest⟩

theorem reads_single {t : TypeExpr} (ht : Legible t) (other : ∀ ps r, t ≠ .function ps r)
    (single : t.alternatives = [t]) (reads : ReadsAs Atom alternativeText EndsAlternative t) :
    ReadsAs Legible text Ends t := by
  refine reads_alternatives ht other fun a ha => ?_
  rw [single, List.mem_singleton] at ha
  rwa [ha]

/-- Two members of unions whose texts start alike are types of one kind. -/
theorem Atom.opening_eq {t u : TypeExpr} {r s : List Char} (ht : Atom t) (hu : Atom u)
    (same : t.alternativeText.toList ++ r = u.alternativeText.toList ++ s) : t.opening = u.opening := by
  obtain ⟨c, cs, first, kind, -⟩ := ht.opening
  obtain ⟨d, ds, first', kind', -⟩ := hu.opening
  rw [first, first'] at same
  rw [← kind, ← kind', (List.cons.inj same).1]

/-- A named type is read in one way, also before the next member of a union. -/
theorem reads_named {m : TypeName} {ps : List TypeExpr} (hm : m.Spelled) (hps : ∀ p ∈ ps, Legible p)
    (reads : ∀ p ∈ ps, ReadsAs Legible text Ends p) (atom : Atom (.named m ps)) :
    ReadsAs Atom alternativeText EndsAlternative (.named m ps) := by
  intro t r s ht hr hs same
  have kind := atom.opening_eq ht same
  cases ht.spelled with
  | @named n qs hn =>
    have hqs : ∀ q ∈ qs, Legible q := ht.params.2
    simp only [alternativeText_named, String.toList_append, List.append_assoc] at same
    -- behind a head come the parameters, or what stands behind the type
    have behind : ∀ {l : List TypeExpr} {u : List Char}, EndsAlternative u →
        ∀ c ∈ ((angled (l.map text)).toList ++ u).head?, isWordChar c = false := by
      intro l u hu
      cases l with
      | nil => simpa [angled] using hu.not_word
      | cons => simp [angled]; decide
    obtain ⟨rfl, rest⟩ := reads_head hm n _ _ hn (behind hr) (behind hs) same
    cases ps with
    | nil =>
      cases qs with
      | nil => exact ⟨rfl, by simpa [angled] using rest⟩
      | cons q qs =>
        simp [angled] at rest
        subst rest
        cases hr with
        | last h => cases h
    | cons p ps =>
      cases qs with
      | nil =>
        simp [angled] at rest
        subst rest
        cases hs with
        | last h => cases h
      | cons q qs =>
        simp only [List.map_cons, angled, String.toList_append, List.append_assoc, List.append_cancel_left_eq] at rest
        have delimited : Delimits Legible text ", " Ends fun l => ∃ u, l = '>' :: u :=
          types_delimited (by rintro _ ⟨u, rfl⟩; exact .angle u) (by rintro u ⟨_, h⟩; simp at h)
        obtain ⟨params, rest⟩ := ReadsAs.list delimited hps reads (q :: qs) _ _ hqs ⟨r, rfl⟩ ⟨s, rfl⟩ rest
        exact ⟨by rw [params], by simpa using rest⟩
  | object => cases m <;> cases kind
  | function => cases m <;> cases kind
  | oneOf => cases m <;> cases kind

/-- An object type is read in one way, up to its closing brace. -/
theorem reads_object {ms : List (Member TypeExpr)} (atom : Atom (.object ms))
    (reads : ∀ m ∈ ms, ReadsAs LegibleMember memberText Ends m) :
    ReadsAs Atom alternativeText EndsAlternative (.object ms) := by
  intro t r s ht _ _ same
  have kind := atom.opening_eq ht same
  cases ht.spelled with
  | @object ns =>
    simp only [alternativeText_object] at same
    cases ms with
    | nil =>
      cases ns with
      | nil => exact ⟨rfl, by simpa [braced] using same⟩
      | cons n ns => simp [braced] at same
    | cons m ms =>
      cases ns with
      | nil => simp [braced] at same
      | cons n ns =>
        simp only [List.map_cons, braced, String.toList_append, List.append_assoc, List.append_cancel_left_eq] at same
        have delimited : Delimits LegibleMember memberText ", " Ends fun l => ∃ u, l = ' ' :: '}' :: u :=
          members_delimited (by rintro _ ⟨u, rfl⟩; exact .brace u) (by rintro u ⟨_, h⟩; simp at h)
        obtain ⟨members, rest⟩ := ReadsAs.list delimited atom.members reads (n :: ns) _ _ ht.members ⟨r, rfl⟩ ⟨s, rfl⟩
          same
        exact ⟨by rw [members], by simpa using rest⟩
  | @named n => cases n <;> cases kind
  | function => cases kind
  | oneOf => cases kind

/-- A function is read in one way: its parameters up to their parenthesis, and its result up to where a type ends. -/
theorem reads_function {ps : List (Member TypeExpr)} {q : TypeExpr} (legible : Legible (.function ps q))
    (params : ∀ p ∈ ps, ReadsAs LegibleMember memberText Ends p) (result : ReadsAs Legible text Ends q) :
    ReadsAs Legible text Ends (.function ps q) := by
  intro t r s ht hr hs same
  have hps := legible.signature.1
  by_cases function : ∃ ns u, t = .function ns u
  · obtain ⟨ns, u, rfl⟩ := function
    obtain ⟨hns, hu⟩ := ht.signature
    simp only [text_function, String.toList_append, List.append_assoc, List.append_cancel_left_eq] at same
    have delimited : Delimits LegibleMember memberText ", " Ends fun l => ∃ u, l = ") => ".toList ++ u :=
      members_delimited (by rintro _ ⟨u, rfl⟩; exact .paren _) (by rintro u ⟨_, h⟩; simp at h)
    obtain ⟨members, rest⟩ := ReadsAs.list delimited hps params ns _ _ hns ⟨_, rfl⟩ ⟨_, rfl⟩ same
    rw [List.append_cancel_left_eq] at rest
    obtain ⟨results, rest⟩ := result u r s hu hr hs rest
    exact ⟨by rw [members, results], rest⟩
  · exact absurd same (function_text_ne (fun p hp => (hps p hp).key) ht fun ns u e => function ⟨ns, u, e⟩)

/-- A function between parentheses is read in one way, whatever stands behind them. -/
theorem reads_enclosed {ps : List (Member TypeExpr)} {q : TypeExpr} (atom : Atom (.function ps q))
    (reads : ReadsAs Legible text Ends (.function ps q)) :
    ReadsAs Atom alternativeText EndsAlternative (.function ps q) := by
  intro t r s ht _ _ same
  have kind := atom.opening_eq ht same
  cases ht.spelled with
  | @function ns u =>
    simp only [alternativeText_function, String.toList_append, List.append_assoc, List.append_cancel_left_eq] at same
    obtain ⟨types, rest⟩ := reads _ _ _ ht.toLegible (.paren r) (.paren s) same
    exact ⟨types, by simpa using rest⟩
  | @named n => cases n <;> cases kind
  | object => cases kind
  | oneOf => cases kind

/-- Every type is read in one way: as a whole before what may stand behind a type, and if it is no union also as a
member of one. -/
theorem Flat.reads {t : TypeExpr} (flat : Flat t) : Spelled t →
    ReadsAs Legible text Ends t ∧
    (t.alternatives = [t] → ReadsAs Atom alternativeText EndsAlternative t) := by
  induction flat with
  | @named m ps flat ih =>
    intro spelled
    have legible : Legible (.named m ps) := ⟨.named m flat, spelled⟩
    have alone : ReadsAs Atom alternativeText EndsAlternative (.named m ps) :=
      reads_named legible.params.1 legible.params.2
        (fun p hp => (ih p hp (legible.params.2 p hp).spelled).1) ⟨legible, rfl⟩
    exact ⟨reads_single legible (fun ps r h => by cases h) rfl alone, fun _ => alone⟩
  | @object ms flat ih =>
    intro spelled
    have legible : Legible (.object ms) := ⟨.object flat, spelled⟩
    have members := legible.members
    have alone : ReadsAs Atom alternativeText EndsAlternative (.object ms) :=
      reads_object ⟨legible, rfl⟩ fun m hm =>
        reads_member (members m hm) (ih m hm (members m hm).value.spelled).1
    exact ⟨reads_single legible (fun ps r h => by cases h) rfl alone, fun _ => alone⟩
  | @function ps q flat flat' ihp ihq =>
    intro spelled
    have legible : Legible (.function ps q) := ⟨.function flat flat', spelled⟩
    obtain ⟨params, result⟩ := legible.signature
    have whole : ReadsAs Legible text Ends (.function ps q) :=
      reads_function legible (fun p hp => reads_member (params p hp) (ihp p hp (params p hp).value.spelled).1)
        (ihq result.spelled).1
    exact ⟨whole, fun single => reads_enclosed ⟨legible, single⟩ whole⟩
  | @oneOf ts flat single distinct several ih =>
    intro spelled
    have legible : Legible (.oneOf ts) := ⟨.oneOf flat single distinct several, spelled⟩
    refine ⟨reads_alternatives legible (fun ps r h => by cases h) fun a ha => ?_, fun alone => ?_⟩
    · exact (ih a ha (legible.atom ha).spelled).2 (single a ha)
    · exact absurd alone oneOf_not_single

/-- Legible types with the same text are the same. -/
theorem Legible.eq_of_text {s t : TypeExpr} (hs : Legible s) (ht : Legible t) (same : s.text = t.text) : s = t :=
  ((hs.flat.reads hs.spelled).1 t [] [] ht .nil .nil (by rw [same])).1

/-- Types that the constructors make, out of words and unquoted literals, are the same if their texts are. So a union
has the text of no function. A function among the members of a union does not take in the members after it: the union is
not written like the one in which these members belong to the result of the function. -/
theorem text_readable :
    (∀ s t : TypeExpr, Built s → Spelled s → Built t → Spelled t → s.text = t.text → s = t) ∧
    (∀ us ps r, Built (.oneOf us) → Spelled (.oneOf us) → Built (.function ps r) → Spelled (.function ps r) →
      (TypeExpr.oneOf us).text ≠ (TypeExpr.function ps r).text) ∧
    ∀ us ps r ts, Built (.oneOf (us ++ function ps r :: ts)) → Spelled (.oneOf (us ++ function ps r :: ts)) →
      ts ≠ [] → (TypeExpr.oneOf (us ++ function ps r :: ts)).text ≠
        (union (us ++ [function ps (union (r :: ts))])).text := by
  have injective : ∀ s t : TypeExpr, Built s → Spelled s → Built t → Spelled t → s.text = t.text → s = t :=
    fun s t hs ss ht st => Legible.eq_of_text ⟨hs.flat, ss⟩ ⟨ht.flat, st⟩
  refine ⟨injective, ?_, ?_⟩
  · intro us ps r hus sus hf sf same
    cases injective _ _ hus sus hf sf same
  · intro us ps r ts built spelled some same
    have whole : Legible (.oneOf (us ++ function ps r :: ts)) := ⟨built.flat, spelled⟩
    have atoms : ∀ a ∈ us ++ function ps r :: ts, Atom a := fun a => whole.atom
    -- the other way to read the text
    have result : Legible (union (r :: ts)) := by
      apply Legible.union
      intro t ht
      rcases List.mem_cons.1 ht with rfl | ht
      · exact (atoms (function ps t) (by simp)).signature.2
      · exact (atoms t (by simp [ht])).toLegible
    have parts : ∀ a ∈ us ++ [function ps (union (r :: ts))], Atom a := by
      intro a ha
      rcases List.mem_append.1 ha with ha | ha
      · exact atoms a (by simp [ha])
      · obtain rfl := List.mem_singleton.1 ha
        exact ⟨(atoms (function ps r) (by simp)).withResult result, rfl⟩
    have equal := whole.eq_of_text (.union fun a ha => (parts a ha).toLegible) same
    -- it has fewer members, because those of `ts` are in the result of the function
    have fewer := length_alternatives_union_le (fun a ha => (parts a ha).flat) (fun a ha => (parts a ha).single)
      (by simp)
    rw [← equal] at fewer
    have := List.length_pos_of_ne_nil some
    simp only [alternatives, List.length_append, List.length_cons, List.length_nil] at fewer
    omega

/-- A function that may be `null`, written in two ways that are the same type. Neither the function alone nor a function
whose result may be `null` has the text. -/
theorem text_readable_nullable :
    Built (union [function [] (ident "A"), null, function [] (ident "A")]) ∧
    Spelled (.oneOf [function [] (ident "A"), null]) ∧
    (TypeExpr.oneOf [function [] (ident "A"), null]).text = "(() => A) | null" ∧
    (function [] (ident "A")).or null = union [function [] (ident "A"), null, function [] (ident "A")] ∧
    (TypeExpr.oneOf [function [] (ident "A"), null]).text ≠ (function [] (ident "A")).text ∧
    (TypeExpr.oneOf [function [] (ident "A"), null]).text ≠ (function [] (union [ident "A", null])).text := by
  have word : ∀ n : String, IsWord n → Built (ident n) ∧ Spelled (ident n) := fun n hn =>
    ⟨.named _ (by simp), .named (.ident hn) (by simp)⟩
  obtain ⟨builtA, spelledA⟩ := word "A" ⟨by decide, List.all_eq_true.1 (by decide)⟩
  obtain ⟨builtNull, spelledNull⟩ := word "null" ⟨by decide, List.all_eq_true.1 (by decide)⟩
  have builtF : Built (function [] (ident "A")) := .function (by simp) builtA
  have spelledF : Spelled (function [] (ident "A")) := .function (by simp) (by simp) spelledA
  have once : (function [] (ident "A")).or null = .oneOf [function [] (ident "A"), null] := by cbv
  have twice : union [function [] (ident "A"), null, function [] (ident "A")] =
      .oneOf [function [] (ident "A"), null] := by cbv
  have builtTwice : Built (union [function [] (ident "A"), null, function [] (ident "A")]) :=
    .union (by simp [builtF, show Built null from builtNull])
  have built : Built (.oneOf [function [] (ident "A"), null]) := twice ▸ builtTwice
  have spelled : Spelled (.oneOf [function [] (ident "A"), null]) :=
    .oneOf (by simp [spelledF, show Spelled null from spelledNull])
  refine ⟨builtTwice, spelled, by decide, ?_, ?_, ?_⟩
  · exact text_readable.1 _ _ (once ▸ built) (once ▸ spelled) builtTwice (twice ▸ spelled) (by rw [once, twice])
  · exact text_readable.2.1 [function [] (ident "A"), null] [] (ident "A") built spelled builtF spelledF
  · exact text_readable.2.2 [] [] (ident "A") [null] built spelled (by simp)

end TypeExpr

end SchemaTypings.TypeScript

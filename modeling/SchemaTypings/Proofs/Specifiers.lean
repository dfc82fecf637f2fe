import Mathlib
import SchemaTypings.Proofs.ImportGroups
import SchemaTypings.Proofs.Outcome
import SchemaTypings.Proofs.Readability
import SchemaTypings.Proofs.UnitTexts
import SchemaTypings.Text.Digits

/-!
# Module specifiers

The module of an import is written between single quotes as it is. Whoever reads the import takes the text between the
quotes for a string literal, in which a backslash starts an escape, and which ends at the first quote without one.

- `readLiteral`: reads the rest of a literal behind its opening quote, as a sequence of UTF-16 code units;
- `Verbatim`: a text without characters that mean something else in a literal;
- `readLiteral_verbatim`, `verbatim_of_readLiteral`: such a text is read as what it is, and no other text is. An escape
  never has as many code units as it is written with, and a quote ends the literal before the text does;
- `readImport`: reads an import statement, for given identifiers (`Identifiers`);
- `specifiers_survive_iff`: the statement of each group of imports is read with the module of the group as its specifier
  exactly if the module is verbatim.
-/

namespace SchemaTypings

namespace TypeScript

/-! ## Code units -/

/-- The UTF-16 code units of a code point. -/
def codeUnits (n : Nat) : List Nat :=
  if n < 0x10000 then [n] else [0xD800 + (n - 0x10000) / 0x400, 0xDC00 + (n - 0x10000) % 0x400]

/-- The UTF-16 code units of characters. They are what the value of a string consists of. -/
def utf16 (cs : List Char) : List Nat := cs.flatMap fun c => codeUnits c.toNat

theorem length_codeUnits_pos (n : Nat) : 0 < (codeUnits n).length := by
  unfold codeUnits
  split <;> simp

theorem length_codeUnits_le (n : Nat) : (codeUnits n).length ≤ 2 := by
  unfold codeUnits
  split <;> simp

theorem utf16_cons (c : Char) (cs : List Char) : utf16 (c :: cs) = codeUnits c.toNat ++ utf16 cs := rfl

theorem utf16_append (cs ds : List Char) : utf16 (cs ++ ds) = utf16 cs ++ utf16 ds := List.flatMap_append

/-- Every character has a code unit. -/
theorem length_le_utf16 : ∀ cs : List Char, cs.length ≤ (utf16 cs).length
  | [] => Nat.le_refl _
  | c :: cs => by
    have rest := length_le_utf16 cs
    have first := length_codeUnits_pos c.toNat
    rw [utf16_cons, List.length_append, List.length_cons]
    omega

/-! ## Escapes -/

/-- The characters that stand for another one behind a backslash. -/
def controlEscapes : List (Char × Nat) := [('b', 8), ('t', 9), ('n', 10), ('v', 11), ('f', 12), ('r', 13)]

/-- Reads so many hexadecimal digits, which follow upon those of a number. -/
def readDigits : Nat → Nat → List Char → Option (Nat × List Char)
  | 0, n, cs => some (n, cs)
  | _ + 1, _, [] => none
  | k + 1, n, c :: cs => do readDigits k (16 * n + (← Text.hexDigit? c)) cs

/-- Reads hexadecimal digits up to a closing brace. -/
def readBraced : Nat → List Char → Option (Nat × List Char)
  | _, [] => none
  | n, c :: cs => if c = '\x7d' then some (n, cs) else do readBraced (16 * n + (← Text.hexDigit? c)) cs

/-- Reads an escape behind its backslash: the code units that it stands for, and the rest of the text. A line does not
end in an escape. The separators of lines and paragraphs, which may stand in a literal, vanish behind a backslash. -/
def readEscape : List Char → Option (List Nat × List Char)
  | [] => none
  | '0' :: cs => if cs.head?.any Char.isDigit then none else some ([0], cs)
  | 'x' :: cs => (readDigits 2 0 cs).map fun (n, rest) => ([n], rest)
  | 'u' :: '\x7b' :: c :: cs => do
    let (n, rest) ← readBraced (← Text.hexDigit? c) cs
    if n ≤ 0x10FFFF then some (codeUnits n, rest) else none
  | 'u' :: cs => (readDigits 4 0 cs).map fun (n, rest) => ([n], rest)
  | c :: cs =>
    if c.isDigit ∨ c = '\n' ∨ c = '\r' then none
    else if c = '\u2028' ∨ c = '\u2029' then some ([], cs)
    else match controlEscapes.lookup c with
      | some n => some ([n], cs)
      | none => some (codeUnits c.toNat, cs)

/-- What is read of a text: characters from its front, on one line, which have at least so many code units. -/
def Consumes (cs rest : List Char) (units : Nat) : Prop :=
  ∃ read, cs = read ++ rest ∧ '\n' ∉ read ∧ units ≤ (utf16 read).length

section Consumes

variable {c : Char} {cs rest : List Char} {m n : Nat}

theorem Consumes.nothing : Consumes cs cs 0 := ⟨[], rfl, List.not_mem_nil, Nat.zero_le _⟩

theorem Consumes.mono (h : Consumes cs rest n) (le : m ≤ n) : Consumes cs rest m := by
  obtain ⟨read, text, line, bound⟩ := h
  exact ⟨read, text, line, le.trans bound⟩

theorem Consumes.cons (h : Consumes cs rest n) (line : c ≠ '\n') :
    Consumes (c :: cs) rest ((codeUnits c.toNat).length + n) := by
  obtain ⟨read, rfl, one, bound⟩ := h
  refine ⟨c :: read, rfl, by simp [line.symm, one], ?_⟩
  rw [utf16_cons, List.length_append]
  exact Nat.add_le_add_left bound _

/-- A character has at least one code unit. -/
theorem Consumes.succ (h : Consumes cs rest n) (line : c ≠ '\n') : Consumes (c :: cs) rest (n + 1) :=
  (h.cons line).mono (by have := length_codeUnits_pos c.toNat; omega)

theorem ne_newline_of_hexDigit? {d : Nat} (h : Text.hexDigit? c = some d) : c ≠ '\n' := by
  rintro rfl
  have none : Text.hexDigit? '\n' = none := by decide
  cases none.symm.trans h

theorem readDigits_consumes : ∀ {k n m : Nat} {cs : List Char}, readDigits k n cs = some (m, rest) →
    Consumes cs rest k
  | 0, _, _, _, h => by
    cases h
    exact .nothing
  | k + 1, n, m, c :: cs, h => by
    obtain ⟨d, digit, h⟩ := Option.bind_eq_some_iff.1 h
    exact (readDigits_consumes h).succ (ne_newline_of_hexDigit? digit)

theorem readBraced_consumes : ∀ {n : Nat} {cs : List Char}, readBraced n cs = some (m, rest) → Consumes cs rest 1
  | n, c :: cs, h => by
    unfold readBraced at h
    split at h
    · rename_i brace
      cases h
      exact Consumes.nothing.succ (by simp [brace])
    · obtain ⟨d, digit, h⟩ := Option.bind_eq_some_iff.1 h
      exact ((readBraced_consumes h).succ (ne_newline_of_hexDigit? digit)).mono (Nat.le_succ _)

/-- An escape stands for no more code units than it is written with, even without its backslash. -/
theorem readEscape_consumes {us : List Nat} (h : readEscape cs = some (us, rest)) : Consumes cs rest us.length := by
  unfold readEscape at h
  split at h
  · cases h
  · split at h
    · cases h
    · cases h
      exact Consumes.nothing.succ (by decide)
  · obtain ⟨⟨n, rest⟩, digits, h⟩ := Option.map_eq_some_iff.1 h
    cases h
    exact ((readDigits_consumes digits).succ (by decide)).mono (by simp)
  · obtain ⟨d, digit, h⟩ := Option.bind_eq_some_iff.1 h
    obtain ⟨⟨n, rest⟩, digits, h⟩ := Option.bind_eq_some_iff.1 h
    dsimp only at h
    split at h
    · cases h
      have braced := (((readBraced_consumes digits).succ (ne_newline_of_hexDigit? digit)).succ (c := '\x7b')
        (by decide)).succ (c := 'u') (by decide)
      exact braced.mono ((length_codeUnits_le n).trans (by decide))
    · cases h
  · obtain ⟨⟨n, rest⟩, digits, h⟩ := Option.map_eq_some_iff.1 h
    cases h
    exact ((readDigits_consumes digits).succ (by decide)).mono (by simp)
  · split at h
    · cases h
    · rename_i allowed
      have line : _ ≠ '\n' := fun e => allowed (.inr (.inl e))
      split at h
      · cases h
        exact (Consumes.nothing.succ line).mono (by simp)
      · split at h
        · cases h
          exact Consumes.nothing.succ line
        · cases h
          exact Consumes.nothing.cons line

theorem Consumes.length_le (h : Consumes cs rest n) : rest.length ≤ cs.length := by
  obtain ⟨read, rfl, -⟩ := h
  simp

end Consumes

/-! ## Literals -/

/-- Reads a literal behind its opening quote: its code units, and the rest of the text behind the closing quote. -/
def readLiteral : List Char → Option (List Nat × List Char)
  | [] => none
  | c :: cs =>
    if c = '\'' then some ([], cs)
    else if c = '\n' ∨ c = '\r' then none
    else if c = '\\' then
      match _ : readEscape cs with
      | none => none
      | some (us, rest) => (readLiteral rest).map fun (vs, after) => (us ++ vs, after)
    else (readLiteral cs).map fun (vs, after) => (codeUnits c.toNat ++ vs, after)
termination_by cs => cs.length
decreasing_by
  · rename_i escape
    exact Nat.lt_succ_of_le (readEscape_consumes escape).length_le
  · exact Nat.lt_succ_self _

/-- Characters that stand for themselves in a literal: neither the quote that ends it, nor the backslash that starts an
escape, nor a line break. -/
def Verbatim (cs : List Char) : Prop := ∀ c ∈ cs, c ∉ ['\'', '\\', '\n', '\r']

section Literals

variable {c : Char} {cs rest after : List Char} {us : List Nat}

theorem verbatim_cons : Verbatim (c :: cs) ↔ c ∉ ['\'', '\\', '\n', '\r'] ∧ Verbatim cs := List.forall_mem_cons

/-- A character that stands for itself. -/
theorem readLiteral_char (quote : c ≠ '\'') (line : ¬(c = '\n' ∨ c = '\r')) (backslash : c ≠ '\\') :
    readLiteral (c :: cs) = (readLiteral cs).map fun (vs, after) => (codeUnits c.toNat ++ vs, after) := by
  rw [readLiteral, if_neg quote, if_neg line, if_neg backslash]

theorem readLiteral_escape (escape : readEscape cs = some (us, rest)) :
    readLiteral ('\\' :: cs) = (readLiteral rest).map fun (vs, after) => (us ++ vs, after) := by
  rw [readLiteral, if_neg (by decide), if_neg (by decide), if_pos rfl]
  split
  · rename_i none
    cases none.symm.trans escape
  · rename_i other
    cases other.symm.trans escape
    rfl

/-- Verbatim characters are read as what they are. -/
theorem readLiteral_verbatim : ∀ {cs : List Char}, Verbatim cs →
    readLiteral (cs ++ '\'' :: rest) = some (utf16 cs, rest)
  | [], _ => by
    rw [List.nil_append, readLiteral, if_pos rfl]
    rfl
  | c :: cs, h => by
    obtain ⟨plain, h⟩ := verbatim_cons.1 h
    simp only [List.mem_cons, not_or, List.not_mem_nil, not_false_iff, and_true] at plain
    obtain ⟨quote, backslash, line⟩ := plain
    rw [List.cons_append, readLiteral_char quote (not_or.2 line) backslash, readLiteral_verbatim h]
    rfl

/-- What is read as a literal: characters of one line up to a quote. They have at least as many code units as the value
of the literal, and more than that if there is an escape among them. -/
theorem readLiteral_body (h : readLiteral cs = some (us, after)) : ∃ body, cs = body ++ '\'' :: after ∧
    '\n' ∉ body ∧ us.length ≤ (utf16 body).length ∧ (us.length = (utf16 body).length → Verbatim body) := by
  induction cs using readLiteral.induct generalizing us after with
  | case1 =>
    rw [readLiteral] at h
    cases h
  | case2 cs =>
    rw [readLiteral, if_pos rfl] at h
    cases h
    exact ⟨[], rfl, List.not_mem_nil, Nat.le_refl _, fun _ => nofun⟩
  | case3 c cs quote line =>
    rw [readLiteral, if_neg quote, if_pos line] at h
    cases h
  | case4 cs none quote line =>
    rw [readLiteral, if_neg quote, if_neg line, if_pos rfl] at h
    split at h
    · cases h
    · rename_i some
      cases none.symm.trans some
  | case5 cs ws rest escape _ _ ih =>
    rw [readLiteral_escape escape] at h
    obtain ⟨⟨vs, after⟩, inner, h⟩ := Option.map_eq_some_iff.1 h
    cases h
    obtain ⟨body, rfl, line, bound, -⟩ := ih inner
    obtain ⟨read, rfl, one, taken⟩ := readEscape_consumes escape
    refine ⟨'\\' :: (read ++ body), by simp, by simp [one, line], ?_, fun same => ?_⟩
    all_goals
      have backslash := length_codeUnits_pos '\\'.toNat
      simp only [utf16_cons, utf16_append, List.length_append] at *
      omega
  | case6 c cs quote line backslash ih =>
    rw [readLiteral_char quote line backslash] at h
    obtain ⟨⟨vs, after⟩, inner, h⟩ := Option.map_eq_some_iff.1 h
    cases h
    obtain ⟨body, rfl, one, bound, verbatim⟩ := ih inner
    obtain ⟨newline, return_⟩ := not_or.1 line
    refine ⟨c :: body, rfl, by simp [Ne.symm newline, one], ?_, fun same => ?_⟩
    · rw [utf16_cons, List.length_append, List.length_append]
      exact Nat.add_le_add_left bound _
    · rw [utf16_cons, List.length_append, List.length_append] at same
      exact verbatim_cons.2 ⟨by simp [quote, backslash, newline, return_], verbatim (Nat.add_left_cancel same)⟩

/-- A text between quotes at the end of a line is the value of the literal only if all of it is verbatim. -/
theorem verbatim_of_readLiteral (h : readLiteral (cs ++ '\'' :: '\n' :: rest) = some (utf16 cs, after)) :
    Verbatim cs := by
  obtain ⟨body, text, line, bound, verbatim⟩ := readLiteral_body h
  rcases List.append_eq_append_iff.1 text with ⟨more, rfl, tail⟩ | ⟨more, rfl, -⟩
  · -- the literal does not go on behind the quote, since the line ends there
    match more, tail with
    | [], _ =>
      rw [List.append_nil] at bound verbatim
      exact verbatim rfl
    | [_], tail =>
      injection tail with _ tail
      injection tail with quote
      exact absurd quote (by decide)
    | _ :: _ :: _, tail =>
      injection tail with _ tail
      injection tail with newline
      exact absurd (by simp [← newline]) line
  · -- a literal that ends before the quote has too few code units
    have fewer := length_le_utf16 more
    rw [utf16_append, List.length_append] at bound verbatim
    obtain rfl : more = [] := List.length_eq_zero_iff.1 (by omega)
    rw [List.append_nil]
    exact verbatim (by simp [utf16])

/-- Text between quotes at the end of a line is a literal with that text as its value exactly if it is verbatim. -/
theorem readLiteral_iff (rest : List Char) :
    (∃ after, readLiteral (cs ++ '\'' :: '\n' :: rest) = some (utf16 cs, after)) ↔ Verbatim cs :=
  ⟨fun ⟨_, h⟩ => verbatim_of_readLiteral h, fun h => ⟨_, readLiteral_verbatim h⟩⟩

example : readLiteral "./\\x62ob\\'s' // a quote".toList = some (utf16 "./bob's".toList, " // a quote".toList) := by cbv

end Literals

/-! ## Import statements -/

/-- What an import statement says. -/
structure ImportStatement where
  names : List String
  /-- The code units of the module specifier. -/
  specifier : List Nat
  deriving DecidableEq, Repr

/-- Which words are identifiers. None of them is empty or has a character that separates words. -/
structure Identifiers where
  isIdentifier : String → Bool
  nonempty : isIdentifier "" = false
  separate : ∀ n, isIdentifier n = true → ∀ c ∈ n.toList, c ∉ [' ', ',', '\x7d']

/-- The rest of a text behind a token, which may have blanks in front of it. -/
def expect (token : String) (cs : List Char) : Option (List Char) :=
  (cs.dropWhile (· == ' ')).dropPrefix? token.toList

/-- A word without the blanks around it. -/
def trimmed (word : List Char) : String :=
  .ofList ((word.dropWhile (· == ' ')).reverse.dropWhile (· == ' ')).reverse

namespace Identifiers

variable (ids : Identifiers)

/-- Reads names up to a closing brace, behind those that have been read and the beginning of a word. A comma may stand
behind the last name. -/
def readNames (names : List String) (word : List Char) : List Char → Option (List String × List Char)
  | [] => none
  | c :: cs =>
    if c = ',' then if ids.isIdentifier (trimmed word) then readNames (names ++ [trimmed word]) [] cs else none
    else if c = '\x7d' then
      if ids.isIdentifier (trimmed word) then some (names ++ [trimmed word], cs)
      else if trimmed word = "" then some (names, cs) else none
    else readNames names (word ++ [c]) cs

/-- Reads an import of names from a module in single quotes. -/
def readImport (cs : List Char) : Option (ImportStatement × List Char) := do
  let cs ← expect "import" cs
  let cs ← expect "\x7b" cs
  let (names, cs) ← ids.readNames [] [] cs
  let cs ← expect "from" cs
  let cs ← expect "'" cs
  let (specifier, cs) ← readLiteral cs
  return (⟨names, specifier⟩, cs)

variable {ids} {names : List String} {word w rest : List Char} {n : String}

/-- What is no separator belongs to a word. -/
theorem readNames_word : ∀ {w word : List Char}, (∀ c ∈ w, c ≠ ',' ∧ c ≠ '\x7d') →
    ids.readNames names word (w ++ rest) = ids.readNames names (word ++ w) rest
  | [], word, _ => by rw [List.nil_append, List.append_nil]
  | c :: w, word, h => by
    obtain ⟨⟨comma, brace⟩, h⟩ := List.forall_mem_cons.1 h
    rw [List.cons_append, readNames, if_neg comma, if_neg brace, readNames_word h, List.append_assoc,
      List.singleton_append]

theorem dropWhile_blanks {before w rest : List Char} (blank : ∀ c ∈ before, c = ' ') (some : w ≠ [])
    (word : ∀ c ∈ w, c ≠ ' ') : (before ++ (w ++ rest)).dropWhile (· == ' ') = w ++ rest := by
  obtain ⟨c, w, rfl⟩ := List.exists_cons_of_ne_nil some
  rw [List.dropWhile_append_of_pos (by simpa using blank), List.cons_append,
    List.dropWhile_cons_of_neg (by simpa using word c List.mem_cons_self)]

/-- The characters of an identifier belong to one word. -/
theorem word_of_identifier (h : ids.isIdentifier n = true) : ∀ c ∈ n.toList, c ≠ ' ' ∧ c ≠ ',' ∧ c ≠ '\x7d' := by
  intro c hc
  have separate := ids.separate n h c hc
  simp only [List.mem_cons, not_or] at separate
  exact ⟨separate.1, separate.2.1, separate.2.2.1⟩

/-- An identifier is left when blanks around it are taken away. -/
theorem trimmed_eq (h : ids.isIdentifier n = true) {before after : List Char} (front : ∀ c ∈ before, c = ' ')
    (back : ∀ c ∈ after, c = ' ') : trimmed (before ++ (n.toList ++ after)) = n := by
  have some : n.toList ≠ [] := by
    intro empty
    rw [String.toList_eq_nil_iff.1 empty, ids.nonempty] at h
    cases h
  have word : ∀ c ∈ n.toList, c ≠ ' ' := fun c hc => (word_of_identifier h c hc).1
  have reversed : (after.reverse ++ (n.toList.reverse ++ [])).dropWhile (· == ' ') = n.toList.reverse ++ [] :=
    dropWhile_blanks (by simpa using back) (by simpa using some) (by simpa using word)
  rw [List.append_nil] at reversed
  rw [trimmed, dropWhile_blanks front some word, List.reverse_append, reversed, List.reverse_reverse,
    String.ofList_toList]

/-- Names with a comma and a blank between them are read up to the brace behind them. -/
theorem readNames_further : ∀ {names read : List String} {n : String}, ids.isIdentifier n = true →
    (∀ m ∈ names, ids.isIdentifier m = true) →
    ids.readNames read [' '] (n.toList ++ ((further ", " names).toList ++ ' ' :: '\x7d' :: rest)) =
      some (read ++ n :: names, rest)
  | [], read, n, h, _ => by
    have word : ∀ c ∈ n.toList ++ [' '], c ≠ ',' ∧ c ≠ '\x7d' := by
      intro c hc
      rcases List.mem_append.1 hc with hc | hc
      · exact (word_of_identifier h c hc).2
      · obtain rfl := List.mem_singleton.1 hc
        decide
    have whole : trimmed ([' '] ++ (n.toList ++ [' '])) = n := trimmed_eq h (by simp) (by simp)
    have text : n.toList ++ ((further ", " []).toList ++ ' ' :: '\x7d' :: rest) =
        (n.toList ++ [' ']) ++ '\x7d' :: rest := by simp [further]
    rw [text, readNames_word word, readNames, if_neg (by decide), if_pos rfl, whole, if_pos h]
  | m :: ms, read, n, h, hs => by
    obtain ⟨hm, hs⟩ := List.forall_mem_cons.1 hs
    have whole : trimmed ([' '] ++ (n.toList ++ [])) = n := trimmed_eq h (by simp) (by simp)
    have text : (further ", " (m :: ms)).toList ++ ' ' :: '\x7d' :: rest =
        ',' :: ' ' :: (m.toList ++ ((further ", " ms).toList ++ ' ' :: '\x7d' :: rest)) := by
      simp [further, String.toList_append]
    rw [List.append_nil] at whole
    rw [text, readNames_word fun c hc => (word_of_identifier h c hc).2, readNames, if_pos rfl, whole, if_pos h,
      readNames, if_neg (by decide), if_neg (by decide), List.nil_append, readNames_further hm hs, List.append_assoc,
      List.singleton_append]

/-- A list of names in braces is read, be it empty. -/
theorem readNames_eq (h : ∀ n ∈ names, ids.isIdentifier n = true) :
    ids.readNames [] [] (' ' :: ((separated ", " names).toList ++ ' ' :: '\x7d' :: rest)) = some (names, rest) := by
  rw [readNames, if_neg (by decide), if_neg (by decide), List.nil_append]
  cases names with
  | nil =>
    have blank : trimmed [' ', ' '] = "" := rfl
    have none : ids.isIdentifier (trimmed [' ', ' ']) = false := blank ▸ ids.nonempty
    change ids.readNames [] [' '] (' ' :: '\x7d' :: rest) = _
    rw [readNames, if_neg (by decide), if_neg (by decide), readNames, if_neg (by decide), if_pos rfl,
      List.singleton_append, none, blank, if_neg (by decide), if_pos rfl]
  | cons n ns =>
    obtain ⟨hn, hs⟩ := List.forall_mem_cons.1 h
    rw [separated_cons, String.toList_append, List.append_assoc, readNames_further hn hs, List.nil_append]

theorem expect_eq {token : String} {before : List Char} (blank : ∀ c ∈ before, c = ' ') (some : token.toList ≠ [])
    (word : ∀ c ∈ token.toList, c ≠ ' ') : expect token (before ++ (token.toList ++ rest)) = .some rest := by
  rw [expect, dropWhile_blanks blank some word, List.dropPrefix?_eq_some_iff]
  exact ⟨token.toList, rfl, beq_self_eq_true _⟩

/-- The text of an import is read as a statement with the same names, and with what the literal is read as. -/
theorem readImport_eq {i : Import} (h : ∀ n ∈ i.names, ids.isIdentifier n = true) :
    ids.readImport (i.text.toList ++ rest) =
      (readLiteral (i.module.toList ++ '\'' :: rest)).map fun (us, after) => (⟨i.names, us⟩, after) := by
  let literal := i.module.toList ++ '\'' :: rest
  let source := [' '] ++ ("from".toList ++ ([' '] ++ ("'".toList ++ literal)))
  let names := ' ' :: ((separated ", " i.names).toList ++ ' ' :: '\x7d' :: source)
  have text : i.text.toList ++ rest = [] ++ ("import".toList ++ ([' '] ++ ("\x7b".toList ++ names))) := by
    simp [names, source, literal, Import.text, quoted, String.toList_append]
  have import_ : expect "import" (i.text.toList ++ rest) = some ([' '] ++ ("\x7b".toList ++ names)) := by
    rw [text]
    exact expect_eq (by simp) (by simp) (by simp)
  have brace : expect "\x7b" ([' '] ++ ("\x7b".toList ++ names)) = some names :=
    expect_eq (by simp) (by simp) (by simp)
  have from_ : expect "from" source = some ([' '] ++ ("'".toList ++ literal)) :=
    expect_eq (by simp) (by simp) (by simp)
  have quote : expect "'" ([' '] ++ ("'".toList ++ literal)) = some literal :=
    expect_eq (by simp) (by simp) (by simp)
  simp only [readImport, import_, brace, readNames_eq h, names, from_, quote, Option.bind_eq_bind, Option.bind_some]
  cases readLiteral literal <;> rfl

/-- A text starts with an import statement that has a module as its specifier. -/
def Specifies (ids : Identifiers) (text module : String) : Prop :=
  ∃ s rest, ids.readImport text.toList = some (s, rest) ∧ s.specifier = utf16 module.toList

/-- The line of an import is read back, before whatever follows it: the module is what the specifier of the statement is
exactly if it is verbatim. The statement then says what the import does, and ends with the line. -/
structure ReadsBack (ids : Identifiers) (i : Import) (after : String) : Prop where
  specifier : ids.Specifies (i.text ++ "\n" ++ after) i.module ↔ Verbatim i.module.toList
  statement : Verbatim i.module.toList → ids.readImport (i.text ++ "\n" ++ after).toList =
    some (⟨i.names, utf16 i.module.toList⟩, '\n' :: after.toList)

theorem readsBack {i : Import} (h : ∀ n ∈ i.names, ids.isIdentifier n = true) (after : String) :
    ids.ReadsBack i after := by
  have read : ids.readImport (i.text ++ "\n" ++ after).toList = (readLiteral (i.module.toList ++ '\'' :: '\n' ::
      after.toList)).map fun (us, rest) => (⟨i.names, us⟩, rest) := by
    rw [← readImport_eq h]
    simp [String.toList_append]
  refine ⟨?_, fun verbatim => by rw [read, readLiteral_verbatim verbatim]; rfl⟩
  rw [← readLiteral_iff after.toList, Specifies, read]
  constructor
  · rintro ⟨s, rest, statement, specifier⟩
    obtain ⟨⟨us, _⟩, literal, statement⟩ := Option.map_eq_some_iff.1 statement
    cases statement
    obtain rfl : us = _ := specifier
    exact ⟨rest, literal⟩
  · rintro ⟨rest, literal⟩
    exact ⟨_, rest, by rw [literal]; rfl, rfl⟩

end Identifiers

end TypeScript

open TypeScript

/-! ## The specifiers of generated units -/

/-- The import of a group of names in the unit of an entity: models by their modules, and the context type. -/
def Source.GroupImport (src : Source) (e : Entity) (i : Import) : Prop :=
  ∃ a g, Associations.build src.schema = .ok a ∧ src.importGroups a e = .ok g ∧ (i.module, i.names) ∈ g.groups.entries

/-- Every import of names from the module of a group stands on a line of the unit. Where the names are identifiers, it
is read back from there with the module as its specifier exactly if the module is verbatim. -/
theorem specifiers_survive_iff (ids : Identifiers) {src : Source} {us : List OutputUnit}
    (generated : src.generate .passthrough = .ok us) : src.EachUnit .passthrough us fun e u => ∀ i,
      src.GroupImport e i → ∃ before after, u.output.content = before ++ "\n" ++ i.text ++ "\n" ++ after ∧
        ((∀ n ∈ i.names, ids.isIdentifier n = true) → ids.ReadsBack i after) := by
  refine eachUnit_of_generate generated fun a ha e _ u hu i ⟨a', g, ha', hg, group⟩ => ?_
  cases ha.symm.trans ha'
  obtain ⟨x, g', hg', rfl⟩ := entityUnit_eq_ok hu
  cases hg.symm.trans hg'
  have imported : i ∈ (x.unit g).imports :=
    List.mem_append_left _ (List.mem_cons_of_mem _ (List.mem_map.2 ⟨(i.module, i.names), group, rfl⟩))
  obtain ⟨before, after, content⟩ := EntityUnit.imports_of_mem imported
  exact ⟨before, after, content, fun names => Identifiers.readsBack names after⟩

/-- Words as identifiers. -/
def wordIdentifiers : Identifiers where
  isIdentifier n := n != "" && n.toList.all isWordChar
  nonempty := rfl
  separate n h c hc := by
    have word : isWordChar c = true := by
      simp only [Bool.and_eq_true, List.all_eq_true] at h
      exact h.2 c hc
    rintro separator
    simp only [List.mem_cons, List.not_mem_nil, or_false] at separator
    rcases separator with rfl | rfl | rfl <;> exact absurd word (by decide)

theorem specifiers_survive_iff_library : ∃ us, librarySource.generate .passthrough = .ok us ∧
    librarySource.EachUnit .passthrough us fun e u => ∀ i, librarySource.GroupImport e i →
      ∃ before after, u.output.content = before ++ "\n" ++ i.text ++ "\n" ++ after ∧
        ((∀ n ∈ i.names, wordIdentifiers.isIdentifier n = true) → wordIdentifiers.ReadsBack i after) := by
  obtain ⟨us, generated⟩ := library_generates
  exact ⟨us, generated, specifiers_survive_iff wordIdentifiers generated⟩

/-- A document with one type. -/
def userDocument : Sdl.Document := ⟨[.definition (.object "User" [] [⟨"name", .named "String" false, []⟩])]⟩

/-- The type of `userDocument`. -/
def quotedUser : ObjectType := ⟨"User", [⟨"name", ⟨"String", .scalar, true, []⟩, []⟩], []⟩

/-- The schema of `userDocument` with a model from a module that has a quote in its path. -/
def quotedSource : Source :=
  ⟨⟨[.object quotedUser], .standard⟩, ModelMap.empty.withModel "User" ⟨"User", "./bob's", none⟩, none, .off⟩

/-- The import of the model, whose literal ends at the quote in the path. -/
def quotedImport : Import := ⟨["User"], "./bob's"⟩

theorem quotedSource_imports : quotedSource.GroupImport (.object quotedUser) quotedImport := by
  have groups : (Associations.build quotedSource.schema >>= fun a => quotedSource.importGroups a (.object quotedUser)) =
      .ok ⟨⟨[("./bob's", ["User"])]⟩⟩ := by cbv
  obtain ⟨a, ha, hg⟩ := bind_eq_ok.1 groups
  exact ⟨a, _, ha, hg, List.mem_singleton_self _⟩

/-- The module of a group is not the specifier of the line that is written for it. -/
theorem quote_ends_specifier : userDocument.schema = .ok quotedSource.schema ∧ ∃ us,
    quotedSource.generate .passthrough = .ok us ∧ ¬quotedSource.EachUnit .passthrough us fun e u => ∀ i,
      quotedSource.GroupImport e i → ∃ before after, u.output.content = before ++ "\n" ++ i.text ++ "\n" ++ after ∧
        wordIdentifiers.Specifies (i.text ++ "\n" ++ after) i.module := by
  have accepted : userDocument.schema = .ok quotedSource.schema := by decide
  obtain ⟨us, generated⟩ : ∃ us, quotedSource.generate .passthrough = .ok us :=
    exists_generate (Sdl.schema_consistent accepted) .passthrough (by decide) (by decide +kernel)
  refine ⟨accepted, us, generated, fun survive => ?_⟩
  have user : Entity.object quotedUser ∈ quotedSource.schema.entities := by decide
  obtain ⟨a, u, -, -, survive⟩ := survive.exists_unit user
  obtain ⟨before, after, -, specifies⟩ := survive quotedImport quotedSource_imports
  have names : ∀ n ∈ quotedImport.names, wordIdentifiers.isIdentifier n = true := by decide
  have verbatim := (Identifiers.readsBack names after).specifier.1 specifies
  exact verbatim '\'' (by decide) (by decide)

end SchemaTypings

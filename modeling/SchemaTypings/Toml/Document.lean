import SchemaTypings.Toml.Number
import SchemaTypings.Toml.Table
import SchemaTypings.Toml.Text

/-!
# TOML documents

A document is a sequence of statements, one a line: headers that start a table, and keys with a value. `Toml.parse?`
gives the table that a document describes, its entries in the order in which they were finished.
-/

namespace SchemaTypings.Toml

/-- Takes something from the front of a text. -/
abbrev Reader (α : Type) := StateT (List Char) Option α

namespace Reader

/-! ## Space between things -/

/-- Takes one character. -/
def expect (c : Char) : Reader Unit := fun cs => (mark c cs).map ((), ·)

/-- Skips spaces within a line. -/
def blank : Reader Unit := fun cs => some ((), cs.dropWhile isBlank)

/-- Takes the end of a line. -/
def newline : Reader Unit := fun cs => if startsNewline cs then some ((), dropNewline cs) else none

/-- Skips a comment up to the end of its line, if one starts here. -/
def comment : Reader Unit := fun cs =>
  match cs with
  | '#' :: rest => some ((), rest.dropWhile isPrintable)
  | _ => some ((), cs)

/-- Takes the end of a line or of the text, perhaps after a comment. -/
def lineEnd : Reader Unit := do
  blank
  comment
  if (← get).isEmpty then return () else newline

/-- Skips spaces, comments and line breaks. A comment must be followed by a line break. -/
def spread (inComment : Bool) : List Char → Option (List Char)
  | '\r' :: '\n' :: cs => spread false cs
  | '\n' :: cs => spread false cs
  | c :: cs =>
    if inComment then if isPrintable c then spread true cs else none
    else if isBlank c then spread false cs
    else if c == '#' then spread true cs
    else some (c :: cs)
  | [] => if inComment then none else some []

/-- Skips spaces, comments and line breaks. -/
def gap : Reader Unit := fun cs => (spread false cs).map ((), ·)

/-! ## Keys -/

/-- Characters of keys without quotes. -/
def isKeyCharacter (c : Char) : Bool := c.isAlphanum || c == '-' || c == '_'

/-- One part of a key. -/
def simpleKey : Reader String := fun cs =>
  match cs with
  | '"' :: rest => (basicString rest).map fun (t, left) => (String.ofList t, left)
  | '\'' :: rest => (literalString rest).map fun (t, left) => (String.ofList t, left)
  | _ =>
    match cs.takeWhile isKeyCharacter with
    | [] => none
    | k => some (String.ofList k, cs.dropWhile isKeyCharacter)

/-- The parts of a key between full stops. -/
def keyParts (cs : List Char) : Option (List String × List Char) :=
  match simpleKey (cs.dropWhile isBlank) with
  | none => none
  | some (k, rest) =>
    match rest.dropWhile isBlank with
    | '.' :: left => if left.length < cs.length then (keyParts left).map fun (ks, end') => (k :: ks, end') else none
    | left => some ([k], left)
termination_by cs.length

/-- How many parts a key may have at most, and how deep values may nest. -/
def maxDepth : Nat := 79

/-- A key: the parts before the last, and the last. -/
def key : Reader (List String × String) := do
  let ks ← keyParts
  match ks.getLast? with
  | some k => if ks.length ≤ maxDepth then return (ks.dropLast, k) else failure
  | none => failure

/-! ## Values -/

/-- The values of an array up to its closing bracket. A comma may follow the last. -/
def elements (value : Reader Setting) (cs : List Char) : Option (List Setting × List Char) := do
  match ← spread false cs with
  | ']' :: rest => some ([], rest)
  | start =>
    let (v, rest) ← value start
    match ← spread false rest with
    | ',' :: left =>
      if left.length < cs.length then (elements value left).map fun (vs, end') => (v :: vs, end') else none
    | ']' :: left => some ([v], left)
    | _ => none
termination_by cs.length

/-- A key and its value. -/
def pair (value : Reader Setting) : Reader ((List String × String) × Setting) := do
  let k ← key
  expect '='
  blank
  return (k, ← value)

/-- The entries of an inline table, from a first one up to the closing brace. -/
def pairs (value : Reader Setting) (es : Entries) (cs : List Char) : Option (Entries × List Char) := do
  let (((path, k), v), rest) ← pair value cs
  let es ← es.assign path k v
  match rest.dropWhile isBlank with
  | ',' :: left => if left.length < cs.length then pairs value es left else none
  | '\x7d' :: left => some (es, left)
  | _ => none
termination_by cs.length

/-- The entries of an inline table after its opening brace. -/
def inlineTable (value : Reader Setting) (cs : List Char) : Option (Setting × List Char) :=
  match cs.dropWhile isBlank with
  | '\x7d' :: rest => some (.table [], rest)
  | start => (pairs value [] start).map fun (es, rest) => (.table (entrySettings es), rest)

/-- A value that holds no others. -/
def simpleValue : Reader Setting := fun cs =>
  match cs with
  | 't' :: 'r' :: 'u' :: 'e' :: rest => some (.bool true, rest)
  | 'f' :: 'a' :: 'l' :: 's' :: 'e' :: rest => some (.bool false, rest)
  | '"' :: _ | '\'' :: _ => (string cs).map fun (t, rest) => (.text (String.ofList t), rest)
  | _ => quantity cs

/-- A value in which others nest to the given depth. -/
def value : Nat → Reader Setting
  | 0 => simpleValue
  | n + 1 => fun cs =>
    match cs with
    | '[' :: rest => (elements (value n) rest).map fun (vs, left) => (.list vs, left)
    | '\x7b' :: rest => inlineTable (value n) rest
    | _ => simpleValue cs

/-! ## Statements -/

/-- A document so far: its tables, and the header under which keys stand. -/
structure State where
  entries : Entries
  header : List String

/-- Takes one statement, empty lines and comments included. -/
def statement (s : State) : Reader State := do
  match ← get with
  | '#' :: _ | '\n' :: _ | '\r' :: _ =>
    lineEnd
    return s
  | '[' :: '[' :: rest =>
    set rest
    let (path, k) ← key
    expect ']'
    expect ']'
    lineEnd
    let entries ← s.entries.openElement path k
    return ⟨entries, path ++ [k]⟩
  | '[' :: rest =>
    set rest
    let (path, k) ← key
    expect ']'
    lineEnd
    let entries ← s.entries.openTable path k
    return ⟨entries, path ++ [k]⟩
  | _ =>
    let ((path, k), v) ← pair (value maxDepth)
    lineEnd
    let entries ← s.entries.assignIn s.header path k v
    return ⟨entries, s.header⟩

/-- Takes statements to the end of the text. -/
def statements (s : State) (cs : List Char) : Option State :=
  match cs.dropWhile isBlank with
  | [] => some s
  | c :: rest =>
    match statement s (c :: rest) with
    | none => none
    | some (s', left) => if left.length < cs.length then statements s' left else none
termination_by cs.length

end Reader

/-- Without a byte order mark at the start. -/
def dropByteOrderMark : List Char → List Char
  | '\ufeff' :: cs => cs
  | cs => cs

/-- The table that a document describes. -/
def parse? (text : String) : Option Setting :=
  (Reader.statements ⟨[], []⟩ (dropByteOrderMark text.toList)).map fun s => .table (entrySettings s.entries)

end SchemaTypings.Toml

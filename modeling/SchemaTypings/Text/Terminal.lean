/-!
# Text for terminals

A text may hold control characters and command sequences, which a terminal obeys instead of showing them. `plain` keeps
what a terminal would show, with tabulators and line breaks.

- A sequence starts with an escape character. A control sequence (after `[`) ends with a letter or the like, a command
  to the system (after `]`) with a bell, and a string (after `P`, `X`, `^` or `_`) with the byte `9C`.
- A cancelling character or another escape character ends a sequence early.
- A tabulator or line break inside a control sequence shows, and so does all text up to the next control character,
  which then counts as part of the sequence again.
-/

namespace SchemaTypings.Text

/-- The character that starts a sequence. -/
def escape : Char := '\x1b'

/-- A text in bold. -/
def strong (text : String) : String := "\x1b[1m" ++ text ++ "\x1b[0m"

/-- A text in bold and underlined. -/
def headline (text : String) : String := "\x1b[1m\x1b[4m" ++ text ++ "\x1b[0m"

/-- What sequence a character belongs to. -/
inductive ControlMode where
  /-- No sequence. -/
  | ground
  /-- Right after an escape character. -/
  | escape
  /-- A sequence of an escape character and further marks. -/
  | marks
  /-- A control sequence. -/
  | control
  /-- The head of a device string, before its first number. -/
  | deviceEntry
  /-- The numbers in the head of a device string. -/
  | deviceNumbers
  /-- The marks in the head of a device string. -/
  | deviceMarks
  /-- A string that only the byte `9C` ends. -/
  | string
  /-- A command to the system. -/
  | command
  deriving DecidableEq, Repr

/-- Whether a character lies between two others. -/
def between (low high c : Char) : Bool := low ≤ c && c ≤ high

/-- Whether a character is outside ASCII. -/
def isWide (c : Char) : Bool := 128 ≤ c.toNat

/-- Control characters that move text without being part of it. -/
def isLayout (c : Char) : Bool := c == '\t' || c == '\n' || c == '\x0c' || c == '\r'

/-- Whether a character shows outside of sequences. -/
def isShown (c : Char) : Bool := between ' ' '~' c || isLayout c || isWide c

/-- Whether the encoding of a character has the byte that ends a string. -/
def endsString (c : Char) : Bool := isWide c && (String.utf8EncodeChar c).contains 0x9c

namespace ControlMode

/-- Whether a character shows although it is met in a mode. -/
def shows : ControlMode → Char → Bool
  | .ground, c => isShown c
  | .escape, c | .marks, c | .control, c => isLayout c
  | _, _ => false

/-- The mode after a character that starts or goes on with a sequence. -/
def after (m : ControlMode) (c : Char) : ControlMode :=
  if c = Text.escape then .escape
  else if c = '\x18' || c = '\x1a' then .ground
  else
    match m with
    | .ground => .ground
    | .escape =>
      if between ' ' '/' c then .marks
      else if c == '[' then .control
      else if c == ']' then .command
      else if c == 'P' then .deviceEntry
      else if c == 'X' || c == '^' || c == '_' then .string
      else if between '0' '~' c then .ground
      else .escape
    | .marks => if between '0' '~' c then .ground else .marks
    | .control => if between '@' '~' c then .ground else .control
    | .deviceEntry =>
      if between ' ' '/' c then .deviceMarks
      else if between '0' '?' c then .deviceNumbers
      else if between '@' '~' c then .string
      else .deviceEntry
    | .deviceNumbers =>
      if between ' ' '/' c then .deviceMarks
      else if between '<' '~' c then .string
      else .deviceNumbers
    | .deviceMarks => if between '0' '~' c then .string else .deviceMarks
    | .string => if endsString c then .ground else .string
    | .command => if c == '\x07' then .ground else .command

end ControlMode

/-- The characters that show. `showing` says that the character before was one of them. -/
def shownFrom (m : ControlMode) (showing : Bool) : List Char → List Char
  | [] => []
  | c :: cs =>
    if showing && isShown c then c :: shownFrom (if isWide c then .ground else m) true cs
    else if m.shows c then c :: shownFrom (m.after c) true cs
    else shownFrom (m.after c) false cs

/-- A text without control characters and sequences. -/
def plain (text : String) : String := String.ofList (shownFrom .ground false text.toList)

end SchemaTypings.Text

import SchemaTypings.Text.Digits

/-!
# Strings of TOML

The four notations of strings. Each function takes the characters after the opening quotes and gives the text and what
follows the closing quotes.

- Between double quotes a backslash escapes, between single quotes it stands for itself.
- A string between threefold quotes may hold line breaks, of which one right at its start is dropped, and may end with
  one or two quotes of its own.
-/

namespace SchemaTypings.Toml

open SchemaTypings.Text

/-- Spaces within a line. -/
def isBlank (c : Char) : Bool := c == ' ' || c == '\t'

/-- Characters that may stand in a line: all but control characters, save the tabulator. -/
def isPrintable (c : Char) : Bool := c == '\t' || (' ' ≤ c && c != '\x7f')

/-- What a backslash and a letter stand for. -/
def escape? : Char → Option Char
  | 'b' => some '\x08'
  | 't' => some '\t'
  | 'n' => some '\n'
  | 'f' => some '\x0c'
  | 'r' => some '\r'
  | '"' => some '"'
  | '\\' => some '\\'
  | _ => none

/-- Puts a character in front of the text of a string. -/
def prepend (c : Char) : Option (List Char × List Char) → Option (List Char × List Char)
  | some (text, rest) => some (c :: text, rest)
  | none => none

/-- A string between double quotes. -/
def basicString : List Char → Option (List Char × List Char)
  | '"' :: cs => some ([], cs)
  | '\\' :: 'u' :: a :: b :: c :: d :: cs => do prepend (← characterOf? [a, b, c, d]) (basicString cs)
  | '\\' :: 'U' :: a :: b :: c :: d :: e :: f :: g :: h :: cs => do
    prepend (← characterOf? [a, b, c, d, e, f, g, h]) (basicString cs)
  | '\\' :: c :: cs => do prepend (← escape? c) (basicString cs)
  | c :: cs => if isPrintable c && c != '\\' then prepend c (basicString cs) else none
  | [] => none

/-- A string between single quotes. -/
def literalString : List Char → Option (List Char × List Char)
  | '\'' :: cs => some ([], cs)
  | c :: cs => if isPrintable c then prepend c (literalString cs) else none
  | [] => none

/-- What follows three quotes that end a string: up to two more of them belong to it. -/
def closingQuotes (quote : Char) : List Char → List Char × List Char
  | c :: d :: cs =>
    if c == quote && d == quote then ([c, d], cs) else if c == quote then ([c], d :: cs) else ([], c :: d :: cs)
  | [c] => if c == quote then ([c], []) else ([], [c])
  | [] => ([], [])

/-- Whether a line ends here. -/
def startsNewline : List Char → Bool
  | '\n' :: _ | '\r' :: '\n' :: _ => true
  | _ => false

/-- A string between threefold double quotes. A backslash at the end of a line drops the line break and all spaces and
line breaks after it; `trimming` says that this goes on. -/
def multilineBasicString (trimming : Bool) : List Char → Option (List Char × List Char)
  | '"' :: '"' :: '"' :: cs => some (closingQuotes '"' cs)
  | '\r' :: '\n' :: cs =>
    if trimming then multilineBasicString true cs else prepend '\n' (multilineBasicString false cs)
  | '\n' :: cs => if trimming then multilineBasicString true cs else prepend '\n' (multilineBasicString false cs)
  | '\\' :: 'u' :: a :: b :: c :: d :: cs => do prepend (← characterOf? [a, b, c, d]) (multilineBasicString false cs)
  | '\\' :: 'U' :: a :: b :: c :: d :: e :: f :: g :: h :: cs => do
    prepend (← characterOf? [a, b, c, d, e, f, g, h]) (multilineBasicString false cs)
  | '\\' :: c :: cs =>
    if startsNewline ((c :: cs).dropWhile isBlank) then multilineBasicString true (c :: cs)
    else do prepend (← escape? c) (multilineBasicString false cs)
  | c :: cs =>
    if trimming && isBlank c then multilineBasicString true cs
    else if isPrintable c && c != '\\' then prepend c (multilineBasicString false cs)
    else none
  | [] => none

/-- A string between threefold single quotes. -/
def multilineLiteralString : List Char → Option (List Char × List Char)
  | '\'' :: '\'' :: '\'' :: cs => some (closingQuotes '\'' cs)
  | '\r' :: '\n' :: cs => prepend '\n' (multilineLiteralString cs)
  | '\n' :: cs => prepend '\n' (multilineLiteralString cs)
  | c :: cs => if isPrintable c then prepend c (multilineLiteralString cs) else none
  | [] => none

/-- Without a line break at the start. -/
def dropNewline : List Char → List Char
  | '\n' :: cs | '\r' :: '\n' :: cs => cs
  | cs => cs

/-- A string in any notation, with its opening quotes. -/
def string : List Char → Option (List Char × List Char)
  | '"' :: '"' :: '"' :: cs => multilineBasicString false (dropNewline cs)
  | '\'' :: '\'' :: '\'' :: cs => multilineLiteralString (dropNewline cs)
  | '"' :: cs => basicString cs
  | '\'' :: cs => literalString cs
  | _ => none

end SchemaTypings.Toml

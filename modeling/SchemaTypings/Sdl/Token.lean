import SchemaTypings.Text.Digits
import SchemaTypings.Text.Indentation

/-!
# Tokens of schema texts

A schema text is cut into tokens by one pass over its characters. `Scan.step` takes one character; between tokens the
scan is in the mode `gap`, inside one it remembers what it has read of it.

- The contents of numbers and strings are checked and dropped, because no typing depends on them.
- Names and numbers end at the first character that cannot belong to them, which then starts the next token.
- `Token.scan` stops at a malformed token, an unfinished string, or brackets nested more than fifty deep. What follows
  is not read, since no reader gets past such a place.
-/

namespace SchemaTypings.Sdl

open Text

/-- A lexical unit of a schema text. -/
inductive Token where
  /-- A punctuation mark of one character. -/
  | mark (c : Char)
  /-- The mark `...`. -/
  | spread
  | name (text : String)
  | number
  /-- A string in either notation. -/
  | text
  /-- A block string that cannot be stripped of its indentation. -/
  | ragged
  /-- What is no token. -/
  | malformed
  deriving DecidableEq, Repr

/-! ## Character classes -/

/-- Names start with an ASCII letter or an underscore. -/
def isNameStart (c : Char) : Bool := c.isAlpha || c == '_'

/-- After their start names may also hold ASCII digits. -/
def isNamePart (c : Char) : Bool := c.isAlphanum || c == '_'

/-- Characters without meaning between tokens. The comma is one of them, and so is the byte order mark anywhere. -/
def isIgnored (c : Char) : Bool :=
  c == ' ' || c == '\t' || c == '\n' || c == '\r' || c == ',' || c == '\ufeff'

/-- Marks that nest. -/
def isOpening (c : Char) : Bool := c == '(' || c == '[' || c == '\x7b'

/-- Marks that end a nesting. -/
def isClosing (c : Char) : Bool := c == ')' || c == ']' || c == '\x7d'

/-- The remaining marks of one character. -/
def isSeparator (c : Char) : Bool :=
  c == '!' || c == '$' || c == ':' || c == '=' || c == '@' || c == '|' || c == '&'

/-- Characters that end a number. All others are taken into it and make it malformed if they do not belong. -/
def endsNumber (c : Char) : Bool :=
  c == ' ' || c == '\t' || c == '\n' || c == '\r' || c == ',' || c == '#' || isOpening c || isClosing c || isSeparator c

/-! ## Numbers -/

/-- Digits without a superfluous leading zero. -/
def isPlainDigits : List Char → Bool
  | [] => false
  | ['0'] => true
  | c :: cs => c != '0' && (c :: cs).all Char.isDigit

/-- An integer literal of any size. -/
def isInteger : List Char → Bool
  | '-' :: cs => isPlainDigits cs
  | cs => isPlainDigits cs

/-- Whether an integer literal denotes a 64-bit signed number. -/
def fitsWord : List Char → Bool
  | '-' :: cs => isWord (-numeral 10 cs)
  | cs => isWord (numeral 10 cs)

/-- What may follow the letter of an exponent. The first character is a sign or one of the digits from 1 to 8. -/
def isExponent : List Char → Bool
  | [] => false
  | c :: cs =>
    if c == '+' || c == '-' then !cs.isEmpty && cs.all Char.isDigit
    else '1' ≤ c && c ≤ '8' && cs.all Char.isDigit

/-- A number literal: an integer that fits a word, or a fraction, or either with an exponent. -/
def isNumber (cs : List Char) : Bool :=
  let isMark := fun c => c == 'e' || c == 'E'
  let mantissa := cs.takeWhile (!isMark ·)
  let whole := mantissa.takeWhile (· != '.')
  match mantissa.dropWhile (· != '.'), cs.dropWhile (!isMark ·) with
  | [], [] => isInteger whole && fitsWord whole
  | [], _ :: exponent => isInteger whole && isExponent exponent
  | _ :: decimals, [] => isInteger whole && !decimals.isEmpty && decimals.all Char.isDigit
  | _ :: decimals, _ :: exponent =>
    isInteger whole && !decimals.isEmpty && decimals.all Char.isDigit && isExponent exponent

/-! ## Escapes -/

/-- Whether the four characters after `\u` denote a character. A plus sign may stand for the first digit. -/
def isCharacterCode (cs : List Char) : Bool :=
  match cs with
  | '+' :: digits => (characterOf? digits).isSome
  | digits => (characterOf? digits).isSome

/-- The characters that may follow a backslash on their own. -/
def isSimpleEscape (c : Char) : Bool :=
  c == '"' || c == '\\' || c == '/' || c == 'b' || c == 'f' || c == 'n' || c == 'r' || c == 't'

/-! ## The scan -/

/-- What the scan is reading. Characters already read are kept newest first. -/
inductive Mode where
  | gap
  | comment
  | name (read : List Char)
  | number (read : List Char)
  /-- After one or two full stops. -/
  | stops (count : Nat)
  /-- After one or two quotes that start a string. -/
  | quotes (count : Nat)
  | text
  /-- After a backslash in a string. -/
  | escape
  /-- After `\u` in a string. -/
  | code (read : List Char)
  /-- Inside a block string: what is read of it, whether a backslash stands before the quotes just read, and how many
  they are. -/
  | block (read : List Char) (escaped : Bool) (quotes : Nat)
  /-- At what is no token. -/
  | stuck
  deriving DecidableEq, Repr

/-- The state of the scan: its mode, the number of open brackets, and the tokens so far, newest first. -/
structure Scan where
  mode : Mode
  depth : Nat
  tokens : List Token
  deriving DecidableEq, Repr

namespace Scan

/-- How deep brackets may nest. -/
def maxDepth : Nat := 50

/-- Nothing read yet. -/
def initial : Scan := ⟨.gap, 0, []⟩

/-- Ends a token. -/
def emit (s : Scan) (t : Token) : Scan := { s with mode := .gap, tokens := t :: s.tokens }

/-- Ends the scan at what is no token. -/
def stop (s : Scan) : Scan := { s.emit .malformed with mode := .stuck }

/-- Takes a character between tokens. -/
def start (s : Scan) (c : Char) : Scan :=
  if isIgnored c then { s with mode := .gap }
  else if isNameStart c then { s with mode := .name [c] }
  else if c.isDigit || c == '-' then { s with mode := .number [c] }
  else if isSeparator c then s.emit (.mark c)
  else if isOpening c then if s.depth < maxDepth then { s.emit (.mark c) with depth := s.depth + 1 } else s.stop
  else if isClosing c then { s.emit (.mark c) with depth := s.depth - 1 }
  else if c == '#' then { s with mode := .comment }
  else if c == '"' then { s with mode := .quotes 1 }
  else if c == '.' then { s with mode := .stops 1 }
  else s.stop

/-- Ends a name. -/
def endName (s : Scan) (read : List Char) : Scan := s.emit (.name (String.ofList read.reverse))

/-- Ends a block string. -/
def endBlock (s : Scan) (read : List Char) : Scan := s.emit (if isRagged read.reverse then .ragged else .text)

/-- Takes a character inside a string that ends at the next quote. -/
def inText (s : Scan) (c : Char) : Scan :=
  if c == '"' then s.emit .text
  else if c == '\\' then { s with mode := .escape }
  else if c == '\n' then s.stop
  else { s with mode := .text }

/-- Takes one character. -/
def step (s : Scan) (c : Char) : Scan :=
  match s.mode with
  | .gap => s.start c
  | .comment => if c == '\n' || c == '\r' then { s with mode := .gap } else s
  | .name read => if isNamePart c then { s with mode := .name (c :: read) } else (s.endName read).start c
  | .number read =>
    if !endsNumber c then { s with mode := .number (c :: read) }
    else if isNumber read.reverse then (s.emit .number).start c
    else s.stop
  | .stops n => if c != '.' then s.stop else if n = 1 then { s with mode := .stops 2 } else s.emit .spread
  | .quotes n =>
    if n = 1 then if c == '"' then { s with mode := .quotes 2 } else s.inText c
    else if c == '"' then { s with mode := .block [] false 0 }
    else (s.emit .text).start c
  | .text => s.inText c
  | .escape =>
    if c == 'u' then { s with mode := .code [] }
    else if isSimpleEscape c then { s with mode := .text }
    else s.stop
  | .code read =>
    if read.length < 3 then { s with mode := .code (c :: read) }
    else if isCharacterCode (c :: read).reverse then { s with mode := .text }
    else s.stop
  | .block read escaped n =>
    if c != '"' then { s with mode := .block (c :: read) (c == '\\') 0 }
    else if n < 2 then { s with mode := .block (c :: read) escaped (n + 1) }
    else if escaped then { s with mode := .block (c :: read) false 0 }
    else s.endBlock (read.drop 2)
  | .stuck => s

/-- Takes the end of the text. -/
def finish (s : Scan) : List Token :=
  let s := match s.mode with
    | .gap | .comment | .stuck => s
    | .name read => s.endName read
    | .number read => if isNumber read.reverse then s.emit .number else s.stop
    | .quotes 2 => s.emit .text
    | _ => s.stop
  s.tokens.reverse

end Scan

/-- The tokens of a text. If there is something in it that is no token, the last one is malformed. -/
def Token.scan (text : String) : List Token := (text.toList.foldl Scan.step Scan.initial).finish

end SchemaTypings.Sdl

/-!
# Lines and their indentation

- `splitLines` cuts a text into lines;
- `sharedIndentation` is the white space that lines start with in common, counted in bytes;
- `isRagged` says that a text cannot be stripped of that indentation, because the cut would divide a character. Blank
  lines before the first and after the last line with something in it are left out, so they are not cut.
-/

namespace SchemaTypings.Text

/-- The lines of a text, where `current` holds what is read of a line, newest first. A carriage return belongs to the
line ending only before a newline, and the last line needs no ending. -/
def splitLines (current : List Char) : List Char → List String
  | [] => if current.isEmpty then [] else [String.ofList current.reverse]
  | '\r' :: '\n' :: cs => String.ofList current.reverse :: splitLines [] cs
  | '\n' :: cs => String.ofList current.reverse :: splitLines [] cs
  | c :: cs => splitLines (c :: current) cs

/-- White space of any script. -/
def isWhiteSpace (c : Char) : Bool :=
  c == ' ' || ('\t' ≤ c && c ≤ '\r') || c == '\u0085' || c == '\u00a0' || c == '\u1680' ||
    ('\u2000' ≤ c && c ≤ '\u200a') || c == '\u2028' || c == '\u2029' || c == '\u202f' || c == '\u205f' || c == '\u3000'

/-- Whether there is nothing but white space in a line. -/
def isBlankLine (line : List Char) : Bool := line.all isWhiteSpace

/-- How many bytes of white space a line starts with, if there is something else in it. -/
def indentation? (line : List Char) : Option Nat :=
  if isBlankLine line then none else some (String.ofList (line.takeWhile isWhiteSpace)).utf8ByteSize

/-- The least indentation of lines with something in them. -/
def sharedIndentation (lines : List (List Char)) : Nat := (lines.filterMap indentation?).min?.getD 0

/-- Whether the place so many bytes into a line lies inside a character. -/
def dividesCharacter : Nat → List Char → Bool
  | 0, _ | _, [] => false
  | n + 1, c :: cs => if c.utf8Size ≤ n + 1 then dividesCharacter (n + 1 - c.utf8Size) cs else true

/-- The lines of a text whose indentation counts: those after the first one, up to the last that is not blank. If the
first line is blank, they start at the next one that is not. -/
def indentedLines (text : List Char) : List (List Char) :=
  match (splitLines [] text).map String.toList with
  | [] => []
  | first :: rest =>
    let rest := if isBlankLine first then rest.dropWhile isBlankLine else rest
    (rest.reverse.dropWhile isBlankLine).reverse

/-- Whether a text cannot be stripped of the indentation that its lines share. -/
def isRagged (text : List Char) : Bool :=
  let lines := indentedLines text
  lines.any (dividesCharacter (sharedIndentation lines))

end SchemaTypings.Text

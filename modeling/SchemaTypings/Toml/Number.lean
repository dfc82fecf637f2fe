import SchemaTypings.Settings.Value
import SchemaTypings.Text.Digits

/-!
# Numbers and dates of TOML

A configuration asks for no number and no date, so these functions check the form and drop the value. What must be
checked beyond the form: an integer fits a 64-bit word, a positive fraction is below the largest double, and a date is
on the calendar.
-/

namespace SchemaTypings.Toml

open SchemaTypings.Text

/-! ## Digits -/

/-- The digits after a first one, each perhaps after an underscore. -/
def moreDigits (isDigit : Char → Bool) : List Char → Option (List Char × List Char)
  | '_' :: c :: cs => do
    if isDigit c then
      let (ds, rest) ← moreDigits isDigit cs
      return (c :: ds, rest)
    else none
  | c :: cs => do
    if isDigit c then
      let (ds, rest) ← moreDigits isDigit cs
      return (c :: ds, rest)
    else if c == '_' then none
    else return ([], c :: cs)
  | [] => some ([], [])

/-- One or more digits. -/
def digits (isDigit : Char → Bool) : List Char → Option (List Char × List Char)
  | c :: cs => do
    if isDigit c then
      let (ds, rest) ← moreDigits isDigit cs
      return (c :: ds, rest)
    else none
  | [] => none

/-- Whether a minus stands in front, and what follows the sign. -/
def sign : List Char → Bool × List Char
  | '-' :: cs => (true, cs)
  | '+' :: cs => (false, cs)
  | cs => (false, cs)

/-- Digits of a decimal integer: a zero alone, or digits that do not start with one. -/
def decimalDigits : List Char → Option (List Char × List Char)
  | '0' :: cs => some (['0'], cs)
  | cs => digits Char.isDigit cs

/-! ## Numbers -/

/-- Whether `m · 10 ^ e` rounds to infinity as a double: it is at least half a unit above the largest one. Numbers far
from that bound are told by their count of digits. -/
def isInfinite (m : Nat) (e : Int) : Bool :=
  let bound := (1 <<< 1024) - (1 <<< 970)
  let magnitude := (Nat.toDigits 10 m).length + e
  if m = 0 || magnitude < 300 then false
  else if magnitude > 310 then true
  else if 0 ≤ e then bound ≤ m * Nat.pow 10 e.toNat
  else bound * Nat.pow 10 (-e).toNat ≤ m

/-- The exponent of a fraction, if there is one. -/
def exponent : List Char → Option (Option Int × List Char)
  | c :: cs => do
    if c == 'e' || c == 'E' then
      let (negative, cs) := sign cs
      let (ds, rest) ← digits Char.isDigit cs
      let n : Int := numeral 10 ds
      return (some (if negative then -n else n), rest)
    else return (none, c :: cs)
  | [] => some (none, [])

/-- The decimals of a fraction, if there are any. -/
def decimals : List Char → Option (Option (List Char) × List Char)
  | '.' :: cs => do
    let (ds, rest) ← digits Char.isDigit cs
    return (some ds, rest)
  | cs => some (none, cs)

/-- A decimal number: an integer or a fraction. -/
def decimalNumber (cs : List Char) : Option (List Char) := do
  let (negative, cs) := sign cs
  match cs with
  | 'i' :: 'n' :: 'f' :: rest | 'n' :: 'a' :: 'n' :: rest => return rest
  | _ =>
    let (whole, cs) ← decimalDigits cs
    let (fraction, cs) ← decimals cs
    let (power, rest) ← exponent cs
    let fits : Bool :=
      match fraction, power with
      | none, none => isWord (if negative then -numeral 10 whole else numeral 10 whole)
      | _, _ =>
        let ds := fraction.getD []
        negative || !isInfinite (numeral 10 (whole ++ ds)) (power.getD 0 - ds.length)
    if fits then return rest else none

/-- An integer in another base, after its mark. -/
def basedInteger (base : Nat) (isDigit : Char → Bool) (cs : List Char) : Option (List Char) := do
  let (ds, rest) ← digits isDigit cs
  if isWord (numeral base ds) then return rest else none

/-- A number. -/
def number : List Char → Option (List Char)
  | '0' :: 'x' :: cs => basedInteger 16 isHexDigit cs
  | '0' :: 'o' :: cs => basedInteger 8 (fun c => '0' ≤ c && c ≤ '7') cs
  | '0' :: 'b' :: cs => basedInteger 2 (fun c => c == '0' || c == '1') cs
  | cs => decimalNumber cs

/-! ## Dates and times -/

/-- A number of two digits between bounds. -/
def twoDigits (low high : Nat) : List Char → Option (Nat × List Char)
  | c :: d :: cs =>
    let n := numeral 10 [c, d]
    if c.isDigit && d.isDigit && low ≤ n && n ≤ high then some (n, cs) else none
  | _ => none

/-- Takes one character. -/
def mark (c : Char) : List Char → Option (List Char)
  | d :: cs => if c == d then some cs else none
  | [] => none

/-- The number of days of a month. -/
def daysIn (year month : Nat) : Nat :=
  if month = 2 then if year % 4 = 0 && (year % 100 != 0 || year % 400 = 0) then 29 else 28
  else if month = 4 || month = 6 || month = 9 || month = 11 then 30
  else 31

/-- A time of day: hour, minute and second, perhaps with decimals. A second may be a leap second. -/
def time (cs : List Char) : Option (List Char) := do
  let (_, cs) ← twoDigits 0 23 cs
  let (_, cs) ← twoDigits 0 59 (← mark ':' cs)
  let (_, cs) ← twoDigits 0 60 (← mark ':' cs)
  match cs with
  | '.' :: c :: rest => return if c.isDigit then rest.dropWhile Char.isDigit else cs
  | _ => return cs

/-- The distance from universal time, if there is one. -/
def offset : List Char → Option (List Char)
  | 'Z' :: cs | 'z' :: cs => some cs
  | '+' :: cs | '-' :: cs => do
    let (_, cs) ← twoDigits 0 23 cs
    let (_, cs) ← twoDigits 0 59 (← mark ':' cs)
    return cs
  | cs => some cs

/-- Whether a time starts here: two digits and a colon. -/
def startsTime : List Char → Bool
  | a :: b :: ':' :: _ => a.isDigit && b.isDigit
  | _ => false

/-- Whether a date starts here: four digits and a hyphen. -/
def startsDate : List Char → Bool
  | a :: b :: c :: d :: '-' :: _ => a.isDigit && b.isDigit && c.isDigit && d.isDigit
  | _ => false

/-- A date, perhaps with a time and an offset. -/
def date (cs : List Char) : Option (List Char) := do
  let year := numeral 10 (cs.take 4)
  let (month, cs) ← twoDigits 1 12 (cs.drop 5)
  let (_, cs) ← twoDigits 1 (daysIn year month) (← mark '-' cs)
  match cs with
  | c :: rest => if (c == 'T' || c == 't' || c == ' ') && startsTime rest then offset (← time rest) else return cs
  | [] => return []

/-- A number, a date or a time. -/
def quantity (cs : List Char) : Option (Setting × List Char) :=
  if startsDate cs then (date cs).map (.date, ·)
  else if startsTime cs then (time cs).map (.date, ·)
  else (number cs).map (.number, ·)

end SchemaTypings.Toml

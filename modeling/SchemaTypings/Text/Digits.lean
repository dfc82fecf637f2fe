/-!
# Digits

Reading numbers off runs of ASCII digits.
-/

namespace SchemaTypings.Text

/-- The value of a hexadecimal digit. -/
def hexDigit? (c : Char) : Option Nat :=
  if c.isDigit then some (c.toNat - '0'.toNat)
  else if 'a' ≤ c && c ≤ 'f' then some (c.toNat - 'a'.toNat + 10)
  else if 'A' ≤ c && c ≤ 'F' then some (c.toNat - 'A'.toNat + 10)
  else none

/-- Whether a character is a hexadecimal digit. -/
def isHexDigit (c : Char) : Bool := (hexDigit? c).isSome

/-- The number that digits denote in a base. A character that is no digit counts as zero. -/
def numeral (base : Nat) (cs : List Char) : Nat := cs.foldl (fun n c => base * n + (hexDigit? c).getD 0) 0

/-- Whether an integer is a 64-bit signed number. -/
def isWord (n : Int) : Bool := Int64.minValue.toInt ≤ n && n ≤ Int64.maxValue.toInt

/-- The character whose code point hexadecimal digits denote. -/
def characterOf? (cs : List Char) : Option Char :=
  if cs.all isHexDigit && decide (numeral 16 cs).isValidChar then some (Char.ofNat (numeral 16 cs)) else none

end SchemaTypings.Text

import AtMark.Text.Blank

/-!
# `Text.Numeral`: integers as people write them

A numeral is an optional sign and decimal digits of any script, with single underscores allowed between
digits and blanks allowed around the whole.  A numeral of more than `maxDigits` digits is refused.
-/

namespace AtMark.Text

/-- The digit zero of every script whose decimal digits are ten consecutive characters from zero to nine, as of
Unicode 14.0.  Later versions have scripts that are missing here. -/
def zeros : List Nat :=
  [0x30, 0x660, 0x6F0, 0x7C0, 0x966, 0x9E6, 0xA66, 0xAE6, 0xB66, 0xBE6, 0xC66, 0xCE6, 0xD66, 0xDE6,
   0xE50, 0xED0, 0xF20, 0x1040, 0x1090, 0x17E0, 0x1810, 0x1946, 0x19D0, 0x1A80, 0x1A90, 0x1B50,
   0x1BB0, 0x1C40, 0x1C50, 0xA620, 0xA8D0, 0xA900, 0xA9D0, 0xA9F0, 0xAA50, 0xABF0, 0xFF10, 0x104A0,
   0x10D30, 0x11066, 0x110F0, 0x11136, 0x111D0, 0x112F0, 0x11450, 0x114D0, 0x11650, 0x116C0, 0x11730,
   0x118E0, 0x11950, 0x11C50, 0x11D50, 0x11DA0, 0x16A60, 0x16AC0, 0x16B50, 0x1D7CE, 0x1D7D8, 0x1D7E2,
   0x1D7EC, 0x1D7F6, 0x1E140, 0x1E2F0, 0x1E950, 0x1FBF0]

/-- The value of a decimal digit of any script. -/
def digit? (c : Char) : Option Nat :=
  (zeros.find? fun first => first ≤ c.toNat && c.toNat < first + 10).map (c.toNat - ·)

/-- The digits of a run in which single underscores may stand between digits. -/
def digits? : Text → Option (List Nat)
  | [] => none
  | [c] => (digit? c).map fun d => [d]
  | c :: '_' :: cs => do return (← digit? c) :: (← digits? cs)
  | c :: cs => do return (← digit? c) :: (← digits? cs)

/-- The number that a list of digits denotes, most significant digit first. -/
def ofDigits (ds : List Nat) : Nat :=
  ds.foldl (fun n d => 10 * n + d) 0

/-- The number of digits beyond which a numeral is refused. -/
def maxDigits : Nat := 4300

/-- The natural number that an unsigned numeral denotes. -/
def natural? (s : Text) : Option Nat := do
  let ds ← digits? s
  if ds.length ≤ maxDigits then some (ofDigits ds) else none

/-- The integer that a numeral denotes, blanks around it aside. -/
def integer? (s : Text) : Option Int :=
  match strip s with
  | '-' :: ds => (natural? ds).map fun n => -(n : Int)
  | '+' :: ds => (natural? ds).map fun n => (n : Int)
  | ds => (natural? ds).map fun n => (n : Int)

end AtMark.Text

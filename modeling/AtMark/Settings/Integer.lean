import AtMark.Search
import AtMark.Text.Blank
import AtMark.Text.Numeral

/-!
# `Settings.Integer`: integers in the texts of settings

A plain numeral is an optional minus sign and ASCII digits, with no zero in front of another digit.  People
also write numerals dressed: with white space around them, a plus sign, zeros in front, a fraction of zeros,
or single underscores between digits.  `undress` takes all that off, and what is left must be plain.

These are the documented rules of the library that checks settings (`Settings.Reading`).
-/

namespace AtMark.Settings.Integer

open Search Text

/-- Why a text denotes no integer. -/
inductive Fault where
  | unreadable
  | tooLong
deriving DecidableEq, Repr

/-! ## Plain numerals -/

/-- The integer that an optional minus sign and plain digits denote.  The sign counts towards the length that
a numeral may have, and a numeral that is too long is refused whatever follows its digits. -/
def signed (negative : Bool) (digits : Text) : Except Fault Int :=
  let run := digits.takeWhile Char.isDigit
  let value : Int := ofDigits (run.map fun c => c.toNat - '0'.toNat)
  if digits = ['0'] then .ok 0
  else if run = [] ∨ run.head? = some '0' then .error .unreadable
  else if maxDigits < run.length + negative.toNat then .error .tooLong
  else if run ≠ digits then .error .unreadable
  else .ok (if negative then -value else value)

/-- The integer that a plain numeral denotes. -/
def plain : Text → Except Fault Int
  | '-' :: digits => signed true digits
  | digits => signed false digits

/-! ## Dressed numerals -/

/-- White space around a numeral: the information separators are none. -/
def isSpace (c : Char) : Bool :=
  isBlank c && !(0x1C ≤ c.toNat && c.toNat ≤ 0x1F)

/-- A zero or an underscore, once a numeral has begun with a zero. -/
def isFiller (c : Char) : Bool :=
  c == '0' || c == '_'

/-- A numeral without the zeros in front of it and the underscores among them.  Before a point or at the end
the last of them stays.  Where neither a digit nor a minus sign follows, nothing is taken off. -/
def dropZeros (s : Text) : Text :=
  let filler := s.takeWhile isFiller
  let last := filler.drop (filler.length - 1)
  if s.head? ≠ some '0' then s
  else
    match s.dropWhile isFiller with
    | [] => last
    | c :: rest =>
      if c = '.' then last ++ c :: rest
      else if c.isDigit || c = '-' then c :: rest
      else s

/-- A numeral without a fraction of zeros; there must be at least one. -/
def dropZeroFraction (s : Text) : Text :=
  match breakOn ['.'] s with
  | some (whole, places) => if places ≠ [] ∧ places.all (· == '0') then whole else s
  | none => s

/-- A numeral without underscores.  Where one stands at an end or next to another one, all stay. -/
def dropUnderscores (s : Text) : Text :=
  if s.head? = some '_' ∨ s.getLast? = some '_' ∨ (breakOn ['_', '_'] s).isSome then s
  else s.filter (· != '_')

/-- The digits of a numeral behind its sign, undressed. -/
def undressDigits (s : Text) : Text :=
  dropUnderscores (dropZeroFraction (dropZeros s))

/-- A numeral undressed.  A plus sign goes, unless a minus sign follows it. -/
def undress (s : Text) : Text :=
  match trim isSpace s with
  | '-' :: digits => '-' :: undressDigits digits
  | '+' :: '-' :: digits => '+' :: '-' :: digits
  | '+' :: digits => undressDigits digits
  | digits => undressDigits digits

/-- The integer that a text denotes. -/
def read (s : Text) : Except Fault Int :=
  plain (undress s)

end AtMark.Settings.Integer

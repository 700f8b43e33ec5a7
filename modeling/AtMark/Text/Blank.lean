import AtMark.Text.Basic

/-!
# `Text.Blank`: white space

`isBlank` is Unicode white space together with the four information separators.  The markup itself
indents by spaces and tabs only, so the narrower class `isIndent` stands beside it.
-/

namespace AtMark.Text

/-- The ranges of blank characters, by code point. -/
def blankRanges : List (Nat × Nat) :=
  [(0x09, 0x0D), (0x1C, 0x20), (0x85, 0x85), (0xA0, 0xA0), (0x1680, 0x1680), (0x2000, 0x200A),
   (0x2028, 0x2029), (0x202F, 0x202F), (0x205F, 0x205F), (0x3000, 0x3000)]

/-- A blank character: Unicode white space or an information separator. -/
def isBlank (c : Char) : Bool :=
  blankRanges.any fun (low, high) => low ≤ c.toNat && c.toNat ≤ high

/-- A character that is not blank. -/
def isSolid (c : Char) : Bool :=
  !isBlank c

/-- A space or a tab. -/
def isIndent (c : Char) : Bool :=
  c == ' ' || c == '\t'

/-- A space, a tab or a carriage return: what may stand unseen at the end of a line. -/
def isTrailing (c : Char) : Bool :=
  isIndent c || c == '\r'

/-- Text without its outer blanks. -/
def strip (s : Text) : Text :=
  trim isBlank s

/-- Text without its trailing blanks. -/
def stripEnd (s : Text) : Text :=
  trimEnd isBlank s

/-- Nothing but blanks. -/
def allBlank (s : Text) : Bool :=
  s.all isBlank

/-- The word at the start, empty if a blank stands there, and the words after it. -/
def firstWord : Text → Text × List Text
  | [] => ([], [])
  | c :: cs =>
    let (word, more) := firstWord cs
    if isBlank c then ([], if word.isEmpty then more else word :: more) else (c :: word, more)

/-- The maximal runs of characters that are not blank. -/
def words (s : Text) : List Text :=
  let (word, more) := firstWord s
  if word.isEmpty then more else word :: more

end AtMark.Text

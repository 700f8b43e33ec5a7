import AtMark.Text.Basic

/-!
# `Text.Lines`: lines

Markup is read line by line, and there only a newline ends a line: `firstLine` is what stands before it and
`afterLine` what stands behind it.  Style bodies are free text, where a line ends at any of the line breaks
of Unicode, a carriage return with a line feed after it being one break; `lines` splits them, and a break at
the very end opens no further line.
-/

namespace AtMark.Text

/-- Any character but a newline. -/
def isInLine (c : Char) : Bool :=
  c != '\n'

/-- The text up to the first newline. -/
def firstLine (s : Text) : Text :=
  s.takeWhile isInLine

/-- The text from the first newline on. -/
def fromLineEnd (s : Text) : Text :=
  s.dropWhile isInLine

/-- The text behind the first newline. -/
def afterLine (s : Text) : Text :=
  (fromLineEnd s).drop 1

theorem firstLine_append_fromLineEnd (s : Text) : firstLine s ++ fromLineEnd s = s :=
  List.takeWhile_append_dropWhile

theorem fromLineEnd_suffix (s : Text) : fromLineEnd s <:+ s :=
  List.dropWhile_suffix isInLine

theorem afterLine_suffix (s : Text) : afterLine s <:+ s :=
  (List.drop_suffix 1 _).trans (fromLineEnd_suffix s)

theorem length_afterLine_lt {s : Text} (h : s ≠ []) : (afterLine s).length < s.length := by
  have hle := (fromLineEnd_suffix s).length_le
  have hpos := List.length_pos_iff.2 h
  simp only [afterLine, List.length_drop]
  omega

/-- The characters that end a line of free text. -/
def isLineBreak (c : Char) : Bool :=
  (0x0A ≤ c.toNat && c.toNat ≤ 0x0D) || (0x1C ≤ c.toNat && c.toNat ≤ 0x1E) ||
    c.toNat == 0x85 || c.toNat == 0x2028 || c.toNat == 0x2029

/-- Puts a character at the start of the first line. -/
def consToFirst (c : Char) : List Text → List Text
  | [] => [[c]]
  | line :: more => (c :: line) :: more

/-- The lines of a free text, without their breaks. -/
def lines : Text → List Text
  | [] => []
  | '\r' :: '\n' :: cs => [] :: lines cs
  | c :: cs => if isLineBreak c then [] :: lines cs else consToFirst c (lines cs)

end AtMark.Text

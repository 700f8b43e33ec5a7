import AtMark.Text.Basic

/-!
# `Token.Name`: names of directives and parameters
-/

namespace AtMark.Name

/-- Names are made of ASCII letters and digits, hyphens and underscores. -/
def isNameChar (c : Char) : Bool :=
  c.isAlphanum || c == '_' || c == '-'

/-- The longest name at the start, possibly empty. -/
def take (s : Text) : Text :=
  s.takeWhile isNameChar

/-- What follows the longest name at the start. -/
def rest (s : Text) : Text :=
  s.dropWhile isNameChar

theorem take_append_rest (s : Text) : take s ++ rest s = s :=
  List.takeWhile_append_dropWhile

end AtMark.Name

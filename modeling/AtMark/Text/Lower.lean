import AtMark.Text.Basic

/-!
# `Text.Lower`: names without regard to case

Names of keys and languages are compared in lower case, and every name known to the library is ASCII.
Outside ASCII only the Kelvin sign has an ASCII lower case, so lowering the ASCII capitals and that one
sign decides every such comparison as full lower-casing would.
-/

namespace AtMark.Text

/-- The lower case of a character as far as it is an ASCII letter. -/
def lowerChar (c : Char) : Char :=
  if c == '\u212a' then 'k' else c.toLower

/-- Lower case for comparison with ASCII names. -/
def lower (s : Text) : Text :=
  s.map lowerChar

end AtMark.Text

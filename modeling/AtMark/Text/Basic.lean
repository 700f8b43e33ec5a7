/-!
# `Text`: text as the list of its characters

Every reader of this library works on what is left to read, so text is a list, and a position is a length.
A string literal stands for its characters wherever text is expected.
-/

namespace AtMark

/-- Text, character by character. -/
abbrev Text := List Char

/-- A string literal stands for its characters. -/
instance : Coe String Text := ⟨String.toList⟩

namespace Text

/-- What is asked of all characters of a text is decided along the text, not over all characters there are. -/
instance decidableForallMem (p : Char → Prop) [DecidablePred p] (s : Text) : Decidable (∀ c ∈ s, p c) :=
  List.decidableBAll p s

/-- A single or double quote. -/
def isQuote (c : Char) : Bool :=
  c == '"' || c == '\''

/-- Drops the characters of a class from the end. -/
def trimEnd (p : Char → Bool) (s : Text) : Text :=
  (s.reverse.dropWhile p).reverse

/-- Drops the characters of a class from both ends. -/
def trim (p : Char → Bool) (s : Text) : Text :=
  trimEnd p (s.dropWhile p)

/-- Joins lines by newlines, with none after the last. -/
def joinLines (lines : List Text) : Text :=
  List.intercalate ['\n'] lines

/-- A natural number in decimal digits. -/
def ofNat (n : Nat) : Text :=
  Nat.toDigits 10 n

/-- An integer in decimal digits, a minus sign before a negative one. -/
def ofInt : Int → Text
  | .ofNat n => ofNat n
  | .negSucc n => '-' :: ofNat (n + 1)

/-- The order of texts by code point. -/
def le : Text → Text → Bool
  | [], _ => true
  | _ :: _, [] => false
  | c :: cs, d :: ds => if c = d then le cs ds else decide (c.toNat < d.toNat)

end Text
end AtMark

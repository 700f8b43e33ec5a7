import AtMark.Search
import AtMark.Text.Blank
import AtMark.Token

/-!
# `Token.Escape`: words that begin with an at sign

Doubling an at sign takes away its meaning: `@@word` reads as the text `@word`.  An escape reaches up to the
next blank, so in a word of several doubled at signs only the first pair is an escape.
-/

namespace AtMark.Escape

open Search Text

/-- The doubled at sign that begins an escape. -/
def mark : Text := "@@"

/-- The text with each escaped word resolved. -/
def resolve (s : Text) : Text :=
  match _ : breakOn mark s with
  | none => s
  | some (before, after) =>
    before ++ '@' :: after.takeWhile isSolid ++ resolve (after.dropWhile isSolid)
termination_by s.length
decreasing_by
  have h := length_of_breakOn ‹_›
  have := (List.dropWhile_suffix isSolid (l := after)).length_le
  simp only [mark] at h
  simp at h
  omega

/-- Does the text hold an escape? -/
def occursIn (s : Text) : Bool :=
  (breakOn mark s).isSome

/-- The content token of a text whose escapes are resolved; owned when there was one. -/
def contentToken (s : Text) : Token :=
  ⟨.content, resolve s, occursIn s⟩

end AtMark.Escape

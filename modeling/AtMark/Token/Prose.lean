import AtMark.Token.Escape

/-!
# `Token.Prose`: running text

A line of prose is cut at its escapes.  Each escape is a content token of its own; a piece before an escape
is kept as it stands unless it is blank, and the last piece loses its trailing blanks.
-/

namespace AtMark.Prose

open Search Text Escape

/-- The content tokens of a line of prose. -/
def tokens (s : Text) : List Token :=
  match _ : breakOn Escape.mark s with
  | none => Token.contentUnlessEmpty (trimEnd isTrailing s) false
  | some (before, after) =>
    (if allBlank before then [] else [⟨.content, before, false⟩]) ++
      ⟨.content, '@' :: after.takeWhile isSolid, true⟩ ::
        tokens ((after.dropWhile isSolid).dropWhile isIndent)
termination_by s.length
decreasing_by
  have h := length_of_breakOn ‹_›
  have := (List.dropWhile_suffix isSolid (l := after)).length_le
  have := (List.dropWhile_suffix isIndent (l := after.dropWhile isSolid)).length_le
  simp [Escape.mark] at h
  omega

end AtMark.Prose

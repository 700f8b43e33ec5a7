import AtMark.Search
import AtMark.Text.Blank

/-!
# `Inline.Emphasis`: strong and emphasised text

The last pass over inline text.  `**text**` is strong and may hold emphasis, `*text*` is emphasised and is
taken as it stands.  A marker around blanks only, or without a partner, is text, and a backslash makes an
asterisk plain.
-/

namespace AtMark.Emphasis

open Search Text

/-- A strong element. -/
def strong (inner : Text) : Text :=
  "<strong>" ++ inner ++ "</strong>"

/-- An emphasis element. -/
def emphasis (inner : Text) : Text :=
  "<em>" ++ inner ++ "</em>"

/-- The text up to a marker and what follows the marker, unless that text is blank. -/
def enclosed? (marker s : Text) : Option (Text × Text) :=
  (breakOn marker s).filter fun found => !allBlank found.1

theorem length_of_enclosed? {marker s inner rest : Text}
    (h : enclosed? marker s = some (inner, rest)) :
    s.length = inner.length + marker.length + rest.length :=
  length_of_breakOn (Option.filter_eq_some_iff.1 h).1

/-- The last pass. -/
def render (s : Text) : Text :=
  match s with
  | [] => []
  | '\\' :: '*' :: cs => '*' :: render cs
  | '*' :: '*' :: cs =>
    match _ : enclosed? ['*', '*'] cs with
    | some (inner, rest) => strong (render inner) ++ render rest
    | none => '*' :: '*' :: render cs
  | '*' :: cs =>
    match _ : enclosed? ['*'] cs with
    | some (inner, rest) => emphasis inner ++ render rest
    | none => '*' :: render cs
  | c :: cs => c :: render cs
termination_by s.length
decreasing_by
  · simp only [List.length_cons]
    omega
  · have := length_of_enclosed? ‹_›
    simp at this ⊢
    omega
  · have := length_of_enclosed? ‹_›
    simp at this ⊢
    omega
  · simp only [List.length_cons]
    omega
  · have := length_of_enclosed? ‹_›
    simp at this ⊢
    omega
  · simp
  · simp

end AtMark.Emphasis

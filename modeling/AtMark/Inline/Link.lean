import AtMark.Html
import AtMark.Search
import AtMark.Text.Blank

/-!
# `Inline.Link`: links

The third pass over inline text.  `[label](target)` becomes a link when its target looks like an address;
anything else in brackets stays as it is.
-/

namespace AtMark.Link

open Search Text

/-- Does a target look like an address?  It needs an ASCII letter and a dot, a colon or a slash. -/
def isAddress (target : Text) : Bool :=
  target.any Char.isAlpha && target.any fun c => c == '.' || c == ':' || c == '/'

/-- A link element. -/
def element (label target : Text) : Text :=
  "<a" ++ Html.attr "href" target ++ ">" ++ label ++ "</a>"

/-- What a bracketed label and its target become. -/
def bracketed (label target : Text) : Text :=
  if isAddress (strip target) then element label (strip target)
  else "[" ++ label ++ "](" ++ target ++ ")"

/-- A target in parentheses at the start of a text, and what follows it. -/
def target? : Text → Option (Text × Text)
  | '(' :: cs => breakOn [')'] cs
  | _ => none

theorem length_of_target? {s target rest : Text} (h : target? s = some (target, rest)) :
    rest.length < s.length := by
  unfold target? at h
  split at h
  · have := length_of_breakOn h
    simp at this ⊢
    omega
  · cases h

/-- The third pass. -/
def render (s : Text) : Text :=
  match _ : breakOn ['['] s with
  | none => s
  | some (before, inside) =>
    match _ : breakOn [']'] inside with
    | none => s
    | some (label, behind) =>
      match _ : target? behind with
      | none => before ++ "[" ++ label ++ "]" ++ render behind
      | some (target, rest) => before ++ bracketed label target ++ render rest
termination_by s.length
decreasing_by
  all_goals
    have h₁ := length_of_breakOn ‹breakOn ['['] s = _›
    have h₂ := length_of_breakOn ‹breakOn [']'] inside = _›
    simp only [List.length_singleton] at h₁ h₂
  · omega
  · have := length_of_target? ‹_›
    omega

end AtMark.Link

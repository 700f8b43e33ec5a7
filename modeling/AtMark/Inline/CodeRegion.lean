import AtMark.Inline.CodeSpan
import AtMark.Search

/-!
# `Inline.CodeRegion`: stretches of text that are code

After the first pass, code stands between `<code>` and `</code>`, and later passes leave it alone.  There
are two ways to ask for it: `segments` cuts a whole text into regions and the rest, and `ahead?` asks from a
position whether it lies in a region, and how far that goes.  An unclosed region goes on to the end.
-/

namespace AtMark.CodeRegion

open Search CodeSpan

/-- A stretch of text inside or outside code. -/
inductive Segment where
  | outside (text : Text)
  | region (text : Text)
deriving DecidableEq, Repr

theorem length_closeTag : closeTag.length = 7 := rfl

/-- The segments of a text, beginning outside. -/
def segments (s : Text) : List Segment :=
  if s = [] then []
  else
    match _ : breakOn openTag s with
    | none => [.outside s]
    | some (before, inside) =>
      match _ : breakOn closeTag inside with
      | none => [.outside before, .region (openTag ++ inside)]
      | some (inner, rest) =>
        .outside before :: .region (openTag ++ inner ++ closeTag) :: segments rest
termination_by s.length
decreasing_by
  have h₁ := length_of_breakOn ‹breakOn openTag s = _›
  have h₂ := length_of_breakOn ‹breakOn closeTag _ = _›
  rw [length_closeTag] at h₂
  omega

/-- A segment with a function applied to it, unless it is code. -/
def Segment.map (f : Text → Text) : Segment → Text
  | outside text => f text
  | region text => text

/-- Applies a function to the parts of a text outside code and copies the code. -/
def mapOutside (f : Text → Text) (s : Text) : Text :=
  (segments s).flatMap (Segment.map f)

/-- The rest of the region that the position between two texts lies in, and what follows the region.  The
region is the one opened last before the position; a position behind the start of its closing tag is no
longer inside. -/
def ahead? (before rest : Text) : Option (Text × Text) :=
  match breakOnLast openTag before with
  | none => none
  | some (_, inside) =>
    match breakOn closeTag (inside ++ rest) with
    | none => some (rest, [])
    | some (inner, after) =>
      if inner.length < inside.length then none
      else some (inner.drop inside.length ++ closeTag, after)

/-- The position where the region holding a position of the text ends. -/
def endOf? (text : Text) (position : Nat) : Option Nat :=
  (ahead? (text.take position) (text.drop position)).map fun (inside, _) =>
    (text.take position).length + inside.length

theorem eq_of_ahead? {before rest inside after : Text}
    (h : ahead? before rest = some (inside, after)) : rest = inside ++ after := by
  unfold ahead? at h
  split at h
  · cases h
  · next pre opened hopen =>
    split at h
    · cases h
      simp
    · next inner tail hclose =>
      split at h
      · cases h
      · next hlen =>
        cases h
        have heq := congrArg (List.drop opened.length) (eq_of_breakOn hclose)
        simpa [List.drop_append, Nat.sub_eq_zero_of_le (Nat.le_of_not_lt hlen)] using heq

theorem length_of_ahead? {before rest inside after : Text} (hrest : rest ≠ [])
    (h : ahead? before rest = some (inside, after)) : after.length < rest.length := by
  have heq := eq_of_ahead? h
  unfold ahead? at h
  split at h
  · cases h
  · split at h
    · cases h
      exact List.length_pos_iff.2 hrest
    · split at h
      · cases h
      · cases h
        rw [heq]
        simp only [List.length_append, length_closeTag]
        omega

end AtMark.CodeRegion

import AtMark.Search
import AtMark.Text.Blank
import AtMark.Text.Lines
import AtMark.Token.Cursor

/-!
# `Token.Fence`: verbatim bodies

The body of a fenced directive is taken line by line as it stands, up to a line that is `@end` or ends in
`@end`.  Such a line may hold the last line of the body before the marker.  A body that is never closed is
all the rest of the source.
-/

namespace AtMark.Fence

open Search Text

/-- A carriage return. -/
def isReturn (c : Char) : Bool :=
  c == '\r'

/-- How a line inside a fence reads. -/
inductive LineForm where
  | closer
  | lastLine (text : Text)
  | body (text : Text)
deriving DecidableEq, Repr

namespace LineForm

/-- The reading of a line inside a fence. -/
def ofLine (line : Text) : LineForm :=
  let line := trimEnd isReturn line
  let core := trimEnd isIndent line
  if strip core = Token.endMarker then closer
  else
    match cutEnd? Token.endMarker core with
    | some front => lastLine (trimEnd isIndent front)
    | none => body line

end LineForm

/-- The lines of a body, what follows it, and whether it was closed. -/
structure Body where
  lines : List Text
  rest : Text
  closed : Bool
deriving DecidableEq, Repr

/-- Puts a line before the others. -/
def Body.cons (line : Text) (b : Body) : Body :=
  { b with lines := line :: b.lines }

/-- Reads a body from its first line on. -/
def read (s : Text) : Body :=
  if s = [] then ⟨[], [], false⟩
  else
    match LineForm.ofLine (firstLine s) with
    | .closer => ⟨[], afterLine s, true⟩
    | .lastLine text => ⟨[text], afterLine s, true⟩
    | .body text => (read (afterLine s)).cons text
termination_by s.length
decreasing_by exact length_afterLine_lt ‹_›

theorem read_rest_suffix (s : Text) : (read s).rest <:+ s := by
  fun_induction read s with
  | case1 => exact List.nil_suffix
  | case2 => exact afterLine_suffix _
  | case3 => exact afterLine_suffix _
  | case4 s _ _ _ ih => exact ih.trans (afterLine_suffix _)

theorem length_read_rest_lt {s : Text} (h : s ≠ []) : (read s).rest.length < s.length := by
  have hlt := length_afterLine_lt h
  rw [read, if_neg h]
  split
  · exact hlt
  · exact hlt
  · exact Nat.lt_of_le_of_lt (read_rest_suffix (afterLine s)).length_le hlt

/-- The tokens of a body.  A closed one is a slice of the source and is followed by its marker. -/
def Body.tokens (b : Body) : List Token :=
  Token.contentUnlessEmpty (joinLines b.lines) (!b.closed) ++ if b.closed then [Token.blockEnd] else []

/-- Reads the body of the given directive. -/
def scan (directive : Text) (s : Text) : Step :=
  let body := read s
  ⟨body.tokens, if body.closed then [] else [.fenceFlushed directive body.lines.length],
   ⟨body.rest, none⟩⟩

/-- Skips what follows the header of a fenced directive on its line: blanks and one line break. -/
def skipHeaderEnd (s : Text) : Text :=
  match s.dropWhile isIndent with
  | '\r' :: '\n' :: rest => rest
  | '\n' :: rest => rest
  | rest => rest

/-- Bodies of this directive lose the blanks before their first line. -/
def math : Text := "@math"

/-- The start of the body of the given directive, read from behind its header. -/
def bodyStart (directive : Text) (s : Text) : Text :=
  if directive = math then (skipHeaderEnd s).dropWhile isIndent else skipHeaderEnd s

theorem skipHeaderEnd_suffix (s : Text) : skipHeaderEnd s <:+ s := by
  have h := List.dropWhile_suffix isIndent (l := s)
  unfold skipHeaderEnd
  split
  · next rest hs =>
    rw [hs] at h
    exact ((List.suffix_cons _ _).trans (List.suffix_cons _ _)).trans h
  · next rest hs =>
    rw [hs] at h
    exact (List.suffix_cons _ _).trans h
  · exact h

theorem bodyStart_suffix (directive s : Text) : bodyStart directive s <:+ s := by
  unfold bodyStart
  split
  · exact (List.dropWhile_suffix isIndent).trans (skipHeaderEnd_suffix s)
  · exact skipHeaderEnd_suffix s

end AtMark.Fence

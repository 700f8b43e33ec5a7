import AtMark.Html

/-!
# `Inline.CodeSpan`: text between backticks

The first pass over inline text.  A text between backticks becomes a code element, its content escaped.
Outside, a backslash takes away the meaning of a backtick, a dollar sign or a backslash; inside, it keeps
the next character from closing the span, and both stay.  A backtick without a partner is a character.
-/

namespace AtMark.CodeSpan

/-- The tag before a code element's text. -/
def openTag : Text := "<code>"

/-- The tag behind a code element's text. -/
def closeTag : Text := "</code>"

/-- The text up to the closing backtick and what follows it. -/
def close? : Text → Option (Text × Text)
  | [] => none
  | '\\' :: c :: cs => (close? cs).map fun (inner, rest) => ('\\' :: c :: inner, rest)
  | '\x60' :: cs => some ([], cs)
  | c :: cs => (close? cs).map fun (inner, rest) => (c :: inner, rest)

theorem eq_of_close? {s inner rest : Text} (h : close? s = some (inner, rest)) :
    s = inner ++ '\x60' :: rest := by
  fun_induction close? s generalizing inner rest with
  | case1 => cases h
  | case2 c cs ih =>
    obtain ⟨⟨i, r⟩, hi, he⟩ := Option.map_eq_some_iff.1 h
    cases he
    simp [ih hi]
  | case3 cs =>
    cases h
    rfl
  | case4 c cs _ _ ih =>
    obtain ⟨⟨i, r⟩, hi, he⟩ := Option.map_eq_some_iff.1 h
    cases he
    simp [ih hi]

/-- The characters that a backslash makes plain outside code. -/
def isEscapable (c : Char) : Bool :=
  c == '\x60' || c == '$' || c == '\\'

/-- A piece of the first pass: a character that stands for itself, or a code span. -/
inductive Piece where
  | plain (c : Char)
  | code (source : Text)
deriving DecidableEq, Repr

/-- The pieces of a text. -/
def pieces (s : Text) : List Piece :=
  match s with
  | [] => []
  | '\\' :: c :: cs =>
    if isEscapable c then .plain c :: pieces cs else .plain '\\' :: pieces (c :: cs)
  | '\x60' :: cs =>
    match _ : close? cs with
    | some (inner, rest) => .code inner :: pieces rest
    | none => .plain '\x60' :: pieces cs
  | c :: cs => .plain c :: pieces cs
termination_by s.length
decreasing_by
  · simp only [List.length_cons]
    omega
  · simp
  · have := congrArg List.length (eq_of_close? ‹_›)
    simp only [List.length_append, List.length_cons] at this ⊢
    omega
  · simp
  · simp

/-- The code element of a span. -/
def element (source : Text) : Text :=
  openTag ++ Html.escape source ++ closeTag

/-- A piece as HTML. -/
def Piece.html : Piece → Text
  | .plain c => [c]
  | .code source => element source

/-- The first pass. -/
def render (s : Text) : Text :=
  (pieces s).flatMap Piece.html

end AtMark.CodeSpan

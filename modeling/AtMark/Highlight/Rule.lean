import AtMark.Highlight.Class
import AtMark.Highlight.Pattern

/-!
# `Highlight.Rule`: lexing by rules

A lexer is, for each of its modes, a list of rules.  At each place the first rule that reads something
decides; it yields pieces and may change the mode.  A rule reads by patterns, one behind the other, and each
piece is what one of them matches.  Where no rule reads anything, a newline returns to the first mode and any
other character is an error, so a lexer accepts every text.
-/

namespace AtMark.Highlight

/-- The modes of the lexer: running text, or a parameter list. -/
inductive Mode where
  | body
  | parameters
deriving DecidableEq, Repr

/-- A part of a rule: a pattern, and the class of what it matches.  What a part without a class matches is no
piece. -/
structure Part where
  kind : Option Class
  pattern : Pattern

/-- The pieces of what a part matches. -/
def Part.pieces (part : Part) (taken : Text) : List Piece :=
  match part.kind with
  | some kind => [(kind, taken)]
  | none => []

/-- Reads the parts of a rule at the start of a text: their pieces, and what follows them. -/
def readParts : List Part → Text → Option (List Piece × Text)
  | [], s => some ([], s)
  | part :: more, s =>
    part.pattern.run s fun found =>
      (readParts more found.rest).map fun (pieces, rest) => (part.pieces found.taken ++ pieces, rest)

/-- A rule: whether it applies at the start of a line only, its parts, and the mode behind it. -/
structure Rule where
  atLineStart : Bool
  parts : List Part
  next : Mode

/-- What a rule reads at the start of a text, given whether the text begins a line. -/
def Rule.read (rule : Rule) (lineStart : Bool) (s : Text) : Option (List Piece × Text) :=
  if rule.atLineStart && !lineStart then none else readParts rule.parts s

/-- The result of a rule, unless it reads nothing. -/
def Rule.apply (rule : Rule) (lineStart : Bool) (s : Text) : Option (List Piece × Text × Mode) :=
  match rule.read lineStart s with
  | some (pieces, rest) => if rest.length < s.length then some (pieces, rest, rule.next) else none
  | none => none

theorem Rule.length_of_apply {rule : Rule} {lineStart : Bool} {s rest : Text} {pieces : List Piece}
    {mode : Mode} (h : rule.apply lineStart s = some (pieces, rest, mode)) :
    rest.length < s.length := by
  unfold Rule.apply at h
  split at h
  · split at h
    · cases h
      assumption
    · cases h
  · cases h

/-- The result of the first rule that reads something. -/
def firstMatch (rules : List Rule) (lineStart : Bool) (s : Text) :
    Option (List Piece × Text × Mode) :=
  rules.findSome? fun rule => rule.apply lineStart s

theorem length_of_firstMatch {rules : List Rule} {lineStart : Bool} {s rest : Text}
    {pieces : List Piece} {mode : Mode}
    (h : firstMatch rules lineStart s = some (pieces, rest, mode)) : rest.length < s.length := by
  obtain ⟨rule, _, hrule⟩ := List.exists_of_findSome?_eq_some h
  exact rule.length_of_apply hrule

/-- Does the text that ends with some pieces end a line? -/
def endsLine (pieces : List Piece) : Bool :=
  (pieces.flatMap Prod.snd).getLast? == some '\n'

/-- The pieces of a text, from a mode on. -/
def lex (rules : Mode → List Rule) (mode : Mode) (lineStart : Bool) (s : Text) : List Piece :=
  match s with
  | [] => []
  | c :: cs =>
    match _ : firstMatch (rules mode) lineStart (c :: cs) with
    | some (pieces, rest, mode) =>
      pieces.filter (fun piece => piece.2 ≠ []) ++ lex rules mode (endsLine pieces) rest
    | none =>
      if c = '\n' then (.whitespace, [c]) :: lex rules .body true cs
      else (.error, [c]) :: lex rules mode false cs
termination_by s.length
decreasing_by
  · exact length_of_firstMatch ‹_›
  · simp
  · simp

end AtMark.Highlight

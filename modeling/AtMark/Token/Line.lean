import AtMark.Token.Fence
import AtMark.Token.Parameters
import AtMark.Token.Prose

/-!
# `Token.Line`: lines outside a fence

How a line reads is decided by the line alone (`LineForm.ofLine`).  Only a directive may reach further: its
parameter list may run over several lines, and its body may be fenced.
-/

namespace AtMark.Line

open Search Text

/-- How a line outside a fence reads. -/
inductive LineForm where
  /-- A blank line or a comment. -/
  | skipped
  /-- A closing marker. -/
  | closer
  /-- A heading written with hash signs. -/
  | heading (level : Nat) (text : Text)
  /-- A directive, by its name. -/
  | directive (name : Text)
  /-- An at sign that names nothing, with prose behind it. -/
  | loneMark (prose : Text)
  /-- Running text, its indentation aside. -/
  | prose (text : Text)
deriving DecidableEq, Repr

/-- The level and the text of a heading: one to six hash signs, blanks, and the rest of the line. -/
def heading? (s : Text) : Option (Nat × Text) :=
  let hashes := s.takeWhile (· == '#')
  let rest := s.dropWhile (· == '#')
  if 1 ≤ hashes.length ∧ hashes.length ≤ 6 ∧ rest.head?.any isIndent then
    some (hashes.length, strip (rest.dropWhile isIndent))
  else none

namespace LineForm

/-- The reading of a line, its indentation aside, that begins with an at sign; given what follows the
sign. -/
def ofMark (s : Text) : LineForm :=
  let name := Name.take s
  if s.head? = some '@' then prose ('@' :: s)
  else if name = [] then
    if s.head?.all isTrailing then loneMark (s.dropWhile isIndent) else prose ('@' :: s)
  else if '@' :: name = Token.endMarker then prose ('@' :: s)
  else directive ('@' :: name)

/-- The reading of a line that is neither blank, a comment nor a closing marker, its indentation aside. -/
def ofBody (s : Text) : LineForm :=
  match s with
  | '@' :: rest => ofMark rest
  | _ =>
    match heading? (trimEnd isTrailing s) with
    | some (level, text) => heading level text
    | none => prose s

/-- The reading of a line. -/
def ofLine (line : Text) : LineForm :=
  let core := trim isTrailing line
  if core = [] ∨ (skip? "#:" core).isSome then skipped
  else if core = Token.endMarker then closer
  else ofBody (line.dropWhile isIndent)

end LineForm

/-- The tokens of a heading written with hash signs: those of the directive that it stands for. -/
def headingTokens (level : Nat) (text : Text) : List Token :=
  [⟨.directive, "@heading", true⟩, ⟨.parameterKey, "level", true⟩,
   ⟨.parameterValue, ofNat level, true⟩] ++
    if text = [] then [] else [Escape.contentToken text]

/-- The tokens of what follows a directive on its line: a text, and a closing marker unless its at sign is
doubled. -/
def tailTokens (tail : Text) : List Token :=
  match cutEnd? Token.endMarker tail with
  | some front =>
    if front.getLast? = some '@' then [Escape.contentToken tail]
    else
      let body := trimEnd isIndent front
      (if body = [] then [] else [Escape.contentToken body]) ++ [Token.blockEnd]
  | none => if tail = [] then [] else [Escape.contentToken tail]

/-- The parameter list behind a directive's name; one without parentheses is empty and closed. -/
def parameters (s : Text) : Parameters.Scan :=
  match s with
  | '(' :: inner => Parameters.recover inner
  | _ => ⟨[], s, true⟩

/-- Reads a directive, given what follows its name. -/
def scanDirective (fenced : List Text) (name s : Text) : Step :=
  let list := parameters s
  let header := ⟨.directive, name, false⟩ :: list.tokens
  let notices := if list.closed then [] else [.unterminatedList name]
  if name ∈ fenced then
    ⟨header, notices, ⟨Fence.bodyStart name list.rest, some name⟩⟩
  else
    ⟨header ++ tailTokens (trim isTrailing (firstLine list.rest)), notices,
     ⟨afterLine list.rest, none⟩⟩

/-- Reads the line at the start, and all of a directive that begins there. -/
def scan (fenced : List Text) (s : Text) : Step :=
  let stay (tokens : List Token) : Step := ⟨tokens, [], ⟨afterLine s, none⟩⟩
  match LineForm.ofLine (firstLine s) with
  | .skipped => stay []
  | .closer => stay [Token.blockEnd]
  | .heading level text => stay (headingTokens level text)
  | .directive name => scanDirective fenced name ((s.dropWhile isIndent).drop name.length)
  | .loneMark text => stay (⟨.content, "@", false⟩ :: Prose.tokens text)
  | .prose text => stay (Prose.tokens text)

theorem parameters_rest_suffix (s : Text) : (parameters s).rest <:+ s := by
  unfold parameters
  split
  · exact (Parameters.recover_rest_suffix _).trans (List.suffix_cons _ _)
  · exact List.suffix_refl s

theorem scanDirective_rest_suffix (fenced : List Text) (name s : Text) :
    (scanDirective fenced name s).next.rest <:+ s := by
  have h := parameters_rest_suffix s
  unfold scanDirective
  split
  · exact (Fence.bodyStart_suffix _ _).trans h
  · exact (afterLine_suffix _).trans h

theorem scan_rest_suffix (fenced : List Text) (s : Text) : (scan fenced s).next.rest <:+ s := by
  unfold scan
  split
  case h_4 =>
    exact (scanDirective_rest_suffix ..).trans
      ((List.drop_suffix _ _).trans (List.dropWhile_suffix isIndent))
  all_goals exact afterLine_suffix s

end AtMark.Line

import AtMark.Position.Parameters
import AtMark.Token.Line

/-!
# `Position.Line`: lines and fences by positions

The reader of lines stands at the start of a line and reads to its end; a directive may reach further, since its list
can run over lines, and if it opens a fence the next step reads the body.  A line is asked one question after the
other: is there anything on it, is it a comment, does it close a body, and then what its first character behind the
indentation is.  A running text is read in the same way on every line that is prose, from escape to escape.
-/

namespace AtMark.Position

open Search Text

/-- Where the reader of lines stands, the directive whose fence is open, and the tokens so far. -/
structure ReaderState where
  position : Nat
  fence : Option Text
  tokens : List Token
deriving DecidableEq, Repr

/-- The state behind the line that ends at a position, with some more tokens. -/
def ReaderState.behindLine (s : ReaderState) (stop : Nat) (ts : List Token) : ReaderState :=
  ⟨stop + 1, s.fence, s.tokens ++ ts⟩

/-! ## Running text -/

/-- The content tokens of running text between two positions. -/
def readProse (source : Text) (stop position : Nat) : Except Fault (List Token) :=
  if position < stop then
    match find Escape.mark source stop position with
    | none => .ok (Token.contentUnlessEmpty (trimEnd isTrailing (slice source position stop)) false)
    | some escape => do
      let before := slice source position escape
      let wordEnd ← skipWhile source isSolid stop (escape + 2)
      let next ← skipWhile source isIndent stop wordEnd
      if _ : position < next then do
        let more ← readProse source stop next
        return (if allBlank before then [] else [⟨.content, before, false⟩]) ++
          ⟨.content, '@' :: slice source (escape + 2) wordEnd, true⟩ :: more
      else .error (.noProgress position)
  else .ok []
termination_by stop - position

/-- A text with its escapes resolved, from a position on. -/
def resolveFrom (text : Text) (position : Nat) : Except Fault Text :=
  match find Escape.mark text text.length position with
  | none => .ok (slice text position text.length)
  | some escape => do
    let wordEnd ← skipWhile text isSolid text.length (escape + 2)
    if _ : position < wordEnd ∧ wordEnd ≤ text.length then do
      let more ← resolveFrom text wordEnd
      return slice text position escape ++ '@' :: slice text (escape + 2) wordEnd ++ more
    else .error (.noProgress position)
termination_by text.length - position

/-- The content token of a text whose escapes are resolved, none for an empty text. -/
def readContent (text : Text) : Except Fault (List Token) :=
  if text = [] then .ok []
  else do
    let resolved ← resolveFrom text 0
    return [⟨.content, resolved, Escape.occursIn text⟩]

/-- The tokens of a heading written with hash signs. -/
def readHeading (level : Nat) (text : Text) : Except Fault (List Token) := do
  let content ← readContent text
  return Line.headingTokens level [] ++ content

/-- The tokens of what follows a directive on its line. -/
def readTail (tail : Text) : Except Fault (List Token) :=
  match cutEnd? Token.endMarker tail with
  | some front =>
    if front.getLast? = some '@' then readContent tail
    else do
      let content ← readContent (trimEnd isIndent front)
      return content ++ [Token.blockEnd]
  | none => readContent tail

/-! ## Fences -/

/-- The start of the body of a fenced directive, from behind its header. -/
def openFence (source directive : Text) (position : Nat) : Except Fault Nat := do
  let blanks ← skipWhile source isIndent source.length position
  let body :=
    if startsWith "\r\n" source blanks then blanks + 2
    else if startsWith "\n" source blanks then blanks + 1
    else blanks
  if directive = Fence.math then skipWhile source isIndent source.length body else return body

theorem position_le_lineEnd (h : position < source.length) : position ≤ lineEnd source position := by
  have hle := (fromLineEnd_suffix (source.drop position)).length_le
  rw [List.length_drop] at hle
  unfold lineEnd
  omega

/-- The lines of a body, the position behind it, and whether it was closed. -/
structure BodyAt where
  lines : List Text
  stop : Nat
  closed : Bool
deriving DecidableEq, Repr

/-- Reads the lines of a body from a position on, behind those read already. -/
def readBody (source : Text) (position : Nat) (lines : List Text) : BodyAt :=
  if _ : position < source.length then
    let stop := lineEnd source position
    match Fence.LineForm.ofLine (slice source position stop) with
    | .closer => ⟨lines, stop + 1, true⟩
    | .lastLine text => ⟨lines ++ [text], stop + 1, true⟩
    | .body text => readBody source (stop + 1) (lines ++ [text])
  else ⟨lines, source.length, false⟩
termination_by source.length - position
decreasing_by
  have := position_le_lineEnd ‹_›
  omega

/-- Reads the body of a fence. -/
def readFence (source : Text) (s : ReaderState) : ReaderState :=
  let body := readBody source s.position []
  let content := Token.contentUnlessEmpty (joinLines body.lines) (!body.closed)
  ⟨body.stop, none, s.tokens ++ content ++ if body.closed then [Token.blockEnd] else []⟩

/-! ## Directives -/

/-- Reads the list of a directive from behind the name; one without parentheses is empty and closed. -/
def readList (source : Text) (limit : Int) (position : Nat) : Except Fault Parameters.Window := do
  let opened ← isAt source (· == '(') source.length position
  if opened then consumeList source limit (position + 1) else return ⟨[], position, true⟩

/-- Reads a directive's header, from its at sign to the end of its name, and what belongs to it. -/
def readDirective (source : Text) (fenced : List Text) (limit : Int) (start nameStop : Nat) (s : ReaderState) :
    Except Fault ReaderState := do
  let name := slice source start nameStop
  let list ← readList source limit nameStop
  let header := ⟨.directive, name, false⟩ :: list.tokens
  if fenced.contains name then do
    let body ← openFence source name list.position
    return ⟨body, some name, s.tokens ++ header⟩
  else do
    let stop := lineEnd source list.position
    let tail ← readTail (trim isTrailing (slice source list.position stop))
    return s.behindLine stop (header ++ tail)

/-! ## Lines -/

/-- Reads running text up to the end of its line. -/
def readProseLine (source : Text) (start stop : Nat) (s : ReaderState) : Except Fault ReaderState := do
  let ts ← readProse source stop start
  return s.behindLine stop ts

/-- Reads a line that begins, its indentation aside, with an at sign. -/
def readMark (source : Text) (fenced : List Text) (limit : Int) (start stop : Nat) (s : ReaderState) :
    Except Fault ReaderState :=
  let nameStop := nameEnd source source.length (start + 1)
  if startsWith "@@" source start then readProseLine source start stop s
  else if nameStop = start + 1 then do
    let joined ← isAt source (!isTrailing ·) stop (start + 1)
    if joined then readProseLine source start stop s
    else do
      let text ← skipWhile source isIndent stop (start + 1)
      let ts ← readProse source stop text
      return s.behindLine stop (⟨.content, "@", false⟩ :: ts)
  else if slice source start nameStop = Token.endMarker then readProseLine source start stop s
  else readDirective source fenced limit start nameStop s

/-- Reads a line that is neither blank, a comment nor a closing marker. -/
def readBodyLine (source : Text) (fenced : List Text) (limit : Int) (start stop : Nat) (s : ReaderState) :
    Except Fault ReaderState := do
  let line := slice source s.position stop
  let first ← charAt source start
  if first = '#' then
    match Line.heading? ((trimEnd isTrailing line).drop (start - s.position)) with
    | some (level, text) => do
      let ts ← readHeading level text
      return s.behindLine stop ts
    | none => readProseLine source start stop s
  else if first = '@' then readMark source fenced limit start stop s
  else readProseLine source start stop s

/-- Reads the line at the position of a state, and all of a directive that begins there. -/
def readLine (source : Text) (fenced : List Text) (limit : Int) (s : ReaderState) : Except Fault ReaderState :=
  let stop := lineEnd source s.position
  let line := slice source s.position stop
  let core := trim isTrailing line
  let start := s.position + (line.length - (line.dropWhile isIndent).length)
  if core = [] ∨ (skip? "#:" core).isSome then .ok (s.behindLine stop [])
  else if core = Token.endMarker then .ok (s.behindLine stop [Token.blockEnd])
  else readBodyLine source fenced limit start stop s

end AtMark.Position

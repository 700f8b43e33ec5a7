import AtMark.Position.Loop
import AtMark.Token.Parameters

/-!
# `Position.Parameters`: parameter lists by positions

A quoted value is gathered in the pieces between its escapes, and is a slice of the source if there is none.  The
items of a list are the rounds of a loop with a guard (`listLoop`), which is left early at the closing parenthesis.
A list is read up to a limit, first the end of the source; one that is closed nowhere is read again up to the end of
its line, and what was read beyond is dropped (`consumeList`).
-/

namespace AtMark.Position

open Text

/-! ## Quoted values -/

/-- How far a quoted value has been read: where it stopped, where the piece in progress began, and the pieces
before that. -/
structure Pieces where
  stop : Nat
  start : Nat
  parts : List Text

/-- Reads the pieces of a quoted value, up to its closing quote or the limit. -/
def readPieces (source : Text) (limit position start : Nat) (parts : List Text) : Except Fault Pieces :=
  if position < limit then do
    let c ← charAt source position
    if c = '"' then return ⟨position, start, parts⟩
    else if c = '\\' ∧ position + 1 < limit then do
      let d ← charAt source (position + 1)
      readPieces source limit (position + 2) (position + 2) (parts ++ [slice source start position, [d]])
    else readPieces source limit (position + 1) start parts
  else return ⟨position, start, parts⟩
termination_by limit - position

/-- A value, whether it is owned, and the position behind it. -/
structure ValueAt where
  value : Text
  owned : Bool
  stop : Nat
deriving DecidableEq, Repr

/-- Reads a quoted value from behind its opening quote. -/
def readQuoted (source : Text) (limit position : Nat) : Except Fault ValueAt := do
  let pieces ← readPieces source limit position position []
  let last := slice source pieces.start pieces.stop
  let behind := if pieces.stop < limit then pieces.stop + 1 else pieces.stop
  if pieces.parts = [] then return ⟨slice source position pieces.stop, false, behind⟩
  else return ⟨(pieces.parts ++ [last]).flatten, true, behind⟩

/-! ## Items -/

/-- Reads the value of a key from behind the equals sign. -/
def readValueAt (source : Text) (limit position : Nat) : Except Fault ValueAt := do
  let start ← skipWhile source isIndent limit position
  let quoted ← isAt source (· == '"') limit start
  if quoted then readQuoted source limit (start + 1)
  else do
    let stop ← skipWhile source Parameters.isBare limit start
    return ⟨slice source start stop, false, stop⟩

/-- Reads the value of a key from behind the key. -/
def readAssignedAt (source : Text) (limit position : Nat) : Except Fault ValueAt := do
  let look ← skipWhile source isIndent limit position
  let assigned ← isAt source (· == '=') limit look
  if assigned then readValueAt source limit (look + 1) else return ⟨[], false, position⟩

/-! ## Lists -/

/-- Where a list is being read: the position, and the tokens so far. -/
structure ListState where
  position : Nat
  tokens : List Token

/-- One round over a list: its end, an item, or a character that begins no key. -/
def listRound (source : Text) (limit : Nat) (s : ListState) :
    Except Fault (ListState ⊕ Parameters.Window) := do
  let c ← charAt source s.position
  if c = ')' then return .inr ⟨s.tokens, s.position + 1, true⟩
  else if isBlank c ∨ c = ',' then return .inl { s with position := s.position + 1 }
  else if nameEnd source limit s.position = s.position then
    return .inl { s with position := s.position + 1 }
  else do
    let stop := nameEnd source limit s.position
    let assigned ← readAssignedAt source limit stop
    let item : Parameter := ⟨slice source s.position stop, assigned.value, assigned.owned⟩
    return .inl ⟨assigned.stop, s.tokens ++ item.tokens⟩

/-- The loop over the items of a list up to a limit. -/
def listLoop (source : Text) (limit : Nat) : Loop ListState Parameters.Window :=
  ⟨limit, ListState.position, Parameters.Window.position, listRound source limit⟩

/-- Reads a list between two positions.  A list that is not closed there ends at the limit. -/
def scanList (source : Text) (stuckLimit : Int) (position limit : Nat) :
    Except Fault Parameters.Window := do
  let out ← (listLoop source limit).run stuckLimit (Stuck.atPosition source stuckLimit) 0 ⟨position, []⟩
  match out with
  | .inl s => return ⟨s.tokens, limit, false⟩
  | .inr window => return window

/-- Reads a list that need not be closed: one closed nowhere is read again, up to the end of its line. -/
def consumeList (source : Text) (stuckLimit : Int) (position : Nat) : Except Fault Parameters.Window := do
  let window ← scanList source stuckLimit position source.length
  if window.terminated then return window
  else do
    let stop := lineEnd source position
    let line ← scanList source stuckLimit position stop
    return ⟨line.tokens, stop, false⟩

end AtMark.Position

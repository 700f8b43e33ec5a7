import AtMark.Position.Line

/-!
# `Position.Reader`: the loop over a source

The loop over a source takes a step as long as its position is before the end.  It is given here in two ways.

`tokenize` runs it as a loop with a guard and gives the tokens.

`Visits` are the rounds that a run comes to.  Besides the state of the reader, the loop keeps in mind where the round
before this one began, and how many rounds in a row have begun there.  A `Round` is all of that at the start of a
round.  The loop ends there if the source is over, and its guard stops it if the rounds that began at one position
have reached the limit (`Round.outcome?`); otherwise the reader takes a step.  The step is any, so that there are
rounds also of a reader of lines that never moves (`FrozenVisits`).
-/

namespace AtMark.Position

/-- One step: the body of an open fence, or a line. -/
def readStep (source : Text) (fenced : List Text) (limit : Int) (s : ReaderState) : Except Fault ReaderState :=
  match s.fence with
  | some _ => .ok (readFence source s)
  | none => readLine source fenced limit s

/-- The loop over the steps of a source. -/
def markupLoop (source : Text) (fenced : List Text) (limit : Int) : Loop ReaderState Empty :=
  ⟨source.length, ReaderState.position, Empty.elim, fun s => (readStep source fenced limit s).map .inl⟩

/-- The tokens of a source, read by positions. -/
def tokenize (fenced : List Text) (limit : Int) (source : Text) : Except Fault (List Token) := do
  let out ← (markupLoop source fenced limit).run limit (Stuck.atPosition source limit) 0 ⟨0, none, []⟩
  match out with
  | .inl s => return s.tokens
  | .inr result => result.elim

/-! ## Rounds -/

/-- The start of a round: the state of the reader, the position at which the round before began, and how many rounds
in a row have begun at it since. -/
structure Round where
  state : ReaderState
  previous : Option Nat
  idle : Nat
deriving DecidableEq, Repr

namespace Round

/-- How the loop ends at the start of a round, if it does: behind the source, or stopped by its guard. -/
def outcome? (source : Text) (limit : Int) (r : Round) : Option (Except Stuck ReaderState) :=
  if r.state.position < source.length then
    if r.previous = some r.state.position ∧ limit ≤ r.idle + 1 then
      some (.error (Stuck.atPosition source limit r.state.position))
    else none
  else some (.ok r.state)

/-- The start of the next round, given the state that the step leads to. -/
def next (r : Round) (s : ReaderState) : Round :=
  if r.previous = some r.state.position then ⟨s, r.previous, r.idle + 1⟩ else ⟨s, some r.state.position, 0⟩

end Round

/-- The rounds of the loop over a source, from a state of the reader on. -/
inductive Visits (source : Text) (limit : Int) (step : ReaderState → Except Fault ReaderState) (start : ReaderState) :
    Round → Prop
  | start : Visits source limit step start ⟨start, none, 0⟩
  | next {r : Round} {s : ReaderState} : Visits source limit step start r → r.outcome? source limit = none →
      step r.state = .ok s → Visits source limit step start (r.next s)

/-- The rounds over a source. -/
abbrev MarkupVisits (source : Text) (fenced : List Text) (limit : Int) : Round → Prop :=
  Visits source limit (readStep source fenced limit) ⟨0, none, []⟩

/-! ## A reader that stands still -/

/-- What a step makes of a state if lines are not read. -/
def frozenStep (source : Text) (s : ReaderState) : ReaderState :=
  match s.fence with
  | some _ => readFence source s
  | none => s

/-- The rounds of the loop if lines are not read. -/
abbrev FrozenVisits (source : Text) (limit : Int) (start : ReaderState) : Round → Prop :=
  Visits source limit (fun s => .ok (frozenStep source s)) start

end AtMark.Position

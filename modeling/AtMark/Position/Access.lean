import AtMark.Search
import AtMark.Text.Lines
import AtMark.Token.Name
import AtMark.Token.Stuck

/-!
# `Position.Access`: looking at a source by positions

The readers of `Token` take what is left to read and give back what is left behind them.  The readers of `Position`
hold the whole source instead, and have a position in it and a limit.  Two things can go wrong in that way which
cannot in the other: a character may be asked for where there is none, and a loop over positions may come back to
where it was.  Here both are faults, and a reader that does not keep to the source ends with one.

That none does is proved in `Proofs.Position`, and that the tokens are those of `Token`.
-/

namespace AtMark.Position

open Text

/-- What can go wrong in reading by positions. -/
inductive Fault where
  /-- A character was asked for where there is none. -/
  | outOfRange (position : Nat)
  /-- A loop went back, or stood still where no guard counts its rounds. -/
  | noProgress (position : Nat)
  /-- A loop's guard stopped it. -/
  | stuck (report : Stuck)
deriving DecidableEq, Repr

/-- The character at a position. -/
def charAt (source : Text) (position : Nat) : Except Fault Char :=
  match source[position]? with
  | some c => .ok c
  | none => .error (.outOfRange position)

/-- Is there a character of the class before the limit?  Nothing is looked at from the limit on. -/
def isAt (source : Text) (p : Char → Bool) (limit position : Nat) : Except Fault Bool :=
  if position < limit then do
    let c ← charAt source position
    return p c
  else return false

/-- The first position, from one on, that is at the limit or holds a character outside the class. -/
def skipWhile (source : Text) (p : Char → Bool) (limit position : Nat) : Except Fault Nat :=
  if position < limit then do
    let c ← charAt source position
    if p c then skipWhile source p limit (position + 1) else return position
  else return position
termination_by limit - position

/-- The text between two positions.  Cutting never fails. -/
def slice (source : Text) (start stop : Nat) : Text :=
  (source.take stop).drop start

/-- The position of the newline that ends the line at a position, or the end of the source. -/
def lineEnd (source : Text) (position : Nat) : Nat :=
  source.length - (fromLineEnd (source.drop position)).length

/-- The end of the longest name at a position. -/
def nameEnd (source : Text) (limit position : Nat) : Nat :=
  position + (Name.take (slice source position limit)).length

/-- The position of the first occurrence of a mark. -/
def find (mark source : Text) (limit position : Nat) : Option Nat :=
  (Search.breakOn mark (slice source position limit)).map fun (before, _) => position + before.length

/-- Does the mark stand at the position? -/
def startsWith (mark source : Text) (position : Nat) : Bool :=
  (Search.skip? mark (source.drop position)).isSome

end AtMark.Position

import AtMark.Text.Basic

/-!
# `Token.Stuck`: a reader that makes no progress

A reader that stays where it is would loop for ever.  After a number of idle steps it is stopped, and the
report names the line, the position and the text around it.
-/

namespace AtMark

/-- A reader stopped at a position of a source after so many idle steps. -/
structure Stuck where
  limit : Int
  line : Nat
  position : Nat
  context : Text
deriving DecidableEq, Repr

namespace Stuck

/-- How much of the source is shown on each side of the position. -/
def margin : Nat := 40

/-- The report for a position of a source.  Lines are counted from one. -/
def atPosition (source : Text) (limit : Int) (position : Nat) : Stuck :=
  ⟨limit, (source.take position).count '\n' + 1, position,
   (source.take (position + margin)).drop (position - margin)⟩

/-- The wording of the report. -/
def message (s : Stuck) : Text :=
  "\nTokenizer made no progress after " ++ Text.ofInt s.limit ++ " iterations\nLine " ++
    Text.ofNat s.line ++ ", position " ++ Text.ofNat s.position ++ "\nContext: ..." ++ s.context ++
    "..."

end Stuck
end AtMark

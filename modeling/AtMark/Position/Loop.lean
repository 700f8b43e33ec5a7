import AtMark.Position.Access

/-!
# `Position.Loop`: loops with a guard

A loop goes from state to state as long as its position is before its end, and it may be left early with a result.
Two loops of the readers are of this kind, that over the steps of a source and that over the items of a parameter
list.  Each has a guard: it counts the rounds in a row after which the position has not moved, and stops the loop with
a report when they reach a limit.

A round that goes back is a fault at once.  No guard looks for it, and a loop that went back and forth would not come
to an end.
-/

namespace AtMark.Position

/-- A loop over positions: its end, the position of a state, the position of a result with which the loop is
left early, and a round, which gives the next state or such a result. -/
structure Loop (σ ρ : Type) where
  stop : Nat
  position : σ → Nat
  leftAt : ρ → Nat
  round : σ → Except Fault (σ ⊕ ρ)

namespace Loop

variable {σ ρ : Type}

/-- Runs a loop from a state, after so many rounds without movement.  The report is made when the guard stops
the loop. -/
def run (loop : Loop σ ρ) (limit : Int) (report : Nat → Stuck) (idle : Nat) (s : σ) :
    Except Fault (σ ⊕ ρ) :=
  if loop.position s < loop.stop then
    match loop.round s with
    | .error fault => .error fault
    | .ok (.inr result) => .ok (.inr result)
    | .ok (.inl next) =>
      if _ : loop.position s < loop.position next then run loop limit report 0 next
      else if _ : loop.position next < loop.position s then .error (.noProgress (loop.position s))
      else if _ : (idle : Int) + 1 < limit then run loop limit report (idle + 1) next
      else .error (.stuck (report (loop.position next)))
  else .ok (.inl s)
termination_by (loop.stop - loop.position s, (limit - idle).toNat)
decreasing_by
  · exact Prod.Lex.left _ _ (by omega)
  · have heq : loop.stop - loop.position next = loop.stop - loop.position s := by omega
    rw [heq]
    exact Prod.Lex.right _ (by omega)

end Loop
end AtMark.Position

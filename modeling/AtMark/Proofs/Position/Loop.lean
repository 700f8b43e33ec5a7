import AtMark.Position.Loop
import AtMark.Proofs.Position.Access

/-!
# `Proofs.Position.Loop`: loops whose guard never acts

The loops of the reader by positions have a guard: they count the rounds in which they did not move and stop with a
report when there are too many.  So a loop ends under any circumstances, and what is to be shown of one is that its
guard is never needed.

`Loop.run_spec` is the rule for that: if every round of a state that the invariant admits succeeds, leads
forward and keeps the invariant, the loop comes to its end, under every limit of the guard, and what the rounds
carry back to the first state holds of what it ends with.  The rule is used twice, for the loop over lines and for the
loop over the items of a list, and once the invariant is found nothing more has to be said about counting.

A round that goes back is a fault at once, and no such rule is needed for it: to lead forward is part of what a round
owes (`Advances`), whatever the guard looks for.
-/

namespace AtMark.Position

namespace Loop

variable {σ ρ : Type}

/-- Every round before the end succeeds and leads forward. -/
def MovesForward (loop : Loop σ ρ) : Prop :=
  ∀ s, loop.position s < loop.stop →
    (∃ next, loop.round s = .ok (.inl next) ∧ loop.position s < loop.position next) ∨
      ∃ result, loop.round s = .ok (.inr result) ∧ loop.position s < loop.leftAt result

/-- What a round of an admitted state does: it leaves the loop, or it leads forward to an admitted state. -/
inductive Advances (loop : Loop σ ρ) (Admitted : σ → Prop) (Ends : σ → σ ⊕ ρ → Prop) (s : σ) : Prop
  | leave (result : ρ) (round_eq : loop.round s = .ok (.inr result))
      (forward : loop.position s < loop.leftAt result) (ends : Ends s (.inr result))
  | next (next : σ) (round_eq : loop.round s = .ok (.inl next))
      (forward : loop.position s < loop.position next) (admitted : Admitted next)
      (back : ∀ out, Ends next out → Ends s out)

theorem Advances.movesForward {loop : Loop σ ρ} {Admitted : σ → Prop} {Ends : σ → σ ⊕ ρ → Prop} {s : σ}
    (h : loop.Advances Admitted Ends s) :
    (∃ next, loop.round s = .ok (.inl next) ∧ loop.position s < loop.position next) ∨
      ∃ result, loop.round s = .ok (.inr result) ∧ loop.position s < loop.leftAt result := by
  cases h with
  | leave result heq hforward _ => exact .inr ⟨result, heq, hforward⟩
  | next next heq hforward _ _ => exact .inl ⟨next, heq, hforward⟩

/-- A loop whose rounds lead forward comes to its end, whatever the limit of its guard. -/
theorem run_spec (loop : Loop σ ρ) (Admitted : σ → Prop) (Ends : σ → σ ⊕ ρ → Prop)
    (hstop : ∀ s, Admitted s → ¬loop.position s < loop.stop → Ends s (.inl s))
    (hround : ∀ s, Admitted s → loop.position s < loop.stop → loop.Advances Admitted Ends s)
    (limit : Int) (report : Nat → Stuck) (idle : Nat) {s : σ} (hs : Admitted s) :
    ∃ out, loop.run limit report idle s = .ok out ∧ Ends s out := by
  -- The induction is on how far the end is; every round takes from that.
  induction hn : loop.stop - loop.position s using Nat.strong_induction_on generalizing s idle with
  | _ n ih =>
      by_cases hlt : loop.position s < loop.stop
      · rw [run, if_pos hlt]
        cases hround s hs hlt with
        | leave result heq hforward hends =>
            rw [heq]
            exact ⟨_, rfl, hends⟩
        | next next heq hforward hnext hback =>
            obtain ⟨out, hrun, hends⟩ := ih (loop.stop - loop.position next) (by omega) 0 hnext rfl
            rw [heq]
            dsimp only
            rw [dif_pos hforward]
            exact ⟨out, hrun, hback out hends⟩
      · rw [run, if_neg hlt]
        exact ⟨_, rfl, hstop s hs hlt⟩

end Loop
end AtMark.Position

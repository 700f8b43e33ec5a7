import AtMark.Position.Reader
import AtMark.Proofs.Position.Line
import AtMark.Proofs.Token.Progress

/-!
# `Proofs.Position.Round`: a reader that stands still

## What is proved

A reader of lines that stands still leaves the loop to its guard.  An open fence is read in the first round, and all
rounds from then on begin at one position, so the guard counts them up to its limit: the run comes to one end and to
no other, and it is the end that the stream of such a reader has (`frozen_outcome`).

## How

`FrozenVisits` are the rounds of the run, each with the state of the guard.  After the first round all of them have one
state (`FrozenVisits.first_or_left`).  If that is behind the source, the run is over; if not, the guard counts, and it
stops the loop after as many rounds as it allows (`FrozenVisits.exists_stopped_idle`).  The guard acts only where two
rounds in a row begin at one position (`Round.of_outcome?_eq_some`), so it never takes the first round for the last, and
no round has any other outcome (`FrozenVisits.outcome_unique`).

The stream counts the same rounds, by what is left of the source instead of by positions (`run_frozen`).

## What is not

Readers that stand still for some rounds only.  The one that the library has never does so, and its guard is shown not
to act in `Proofs.Position.Run`.
-/

namespace AtMark.Position

open Text

/-! ## Rounds -/

namespace Round

variable {source : Text} {limit : Int} {r : Round}

theorem lt_of_outcome?_eq_none (h : r.outcome? source limit = none) : r.state.position < source.length := by
  unfold outcome? at h
  split at h
  · assumption
  · cases h

/-- The guard acts only where two rounds in a row begin at one position. -/
theorem of_outcome?_eq_some {out : Except Stuck ReaderState} (h : r.outcome? source limit = some out) :
    (r.state.position < source.length ∧ r.previous = some r.state.position ∧
      out = .error (Stuck.atPosition source limit r.state.position)) ∨
    (¬r.state.position < source.length ∧ out = .ok r.state) := by
  unfold outcome? at h
  split at h
  · next hlt =>
    split at h
    · next hstop => exact .inl ⟨hlt, hstop.1, (Option.some.inj h).symm⟩
    · cases h
  · next hnot => exact .inr ⟨hnot, (Option.some.inj h).symm⟩

theorem state_next (r : Round) (s : ReaderState) : (r.next s).state = s := by
  unfold next
  split
  · rfl
  · rfl

end Round

section Visits

variable {source : Text} {limit : Int} {step : ReaderState → Except Fault ReaderState} {start : ReaderState}
  {r : Round}

/-- A round that begins elsewhere than the one before takes its step. -/
theorem Visits.moved {s : ReaderState} (h : Visits source limit step start r) (hlt : r.state.position < source.length)
    (hmoved : r.previous ≠ some r.state.position) (hs : step r.state = .ok s) :
    Visits source limit step start ⟨s, some r.state.position, 0⟩ := by
  have hgoes : r.outcome? source limit = none := by
    rw [Round.outcome?, if_pos hlt, if_neg fun hstop => hmoved hstop.1]
  have hnext := h.next hgoes hs
  rw [Round.next, if_neg hmoved] at hnext
  exact hnext

/-- What holds of the first state and is kept by every step holds of the states of all rounds. -/
theorem Visits.state_of_step (Kept : ReaderState → Prop) (h : Visits source limit step start r) (hstart : Kept start)
    (hstep : ∀ s next, Kept s → s.position < source.length → step s = .ok next → Kept next) : Kept r.state := by
  induction h with
  | start => exact hstart
  | @next r s _ hgoes hs ih =>
      rw [Round.state_next]
      exact hstep r.state s ih (Round.lt_of_outcome?_eq_none hgoes) hs

end Visits

/-! ## A reader that stands still -/

section Frozen

variable {source : Text} {limit : Int} {start s : ReaderState} {r : Round}

/-- Where a reader ends up that does not read lines: behind the body of an open fence, or where it was. -/
def frozenEnd (source : Text) (s : ReaderState) : ReaderState :=
  if s.position < source.length then frozenStep source s else s

theorem frozenEnd_eq (source : Text) (s : ReaderState) :
    frozenEnd source s = if s.fence = none ∨ source.length ≤ s.position then s else readFence source s := by
  unfold frozenEnd frozenStep
  by_cases hlt : s.position < source.length
  · rw [if_pos hlt]
    split
    · next directive hfence => rw [if_neg (by simp [hfence, hlt])]
    · next hfence => rw [if_pos (.inl hfence)]
  · rw [if_neg hlt, if_pos (.inr (Nat.not_lt.mp hlt))]

theorem fence_frozenEnd (h : (frozenEnd source s).position < source.length) : (frozenEnd source s).fence = none := by
  unfold frozenEnd at h ⊢
  split
  · unfold frozenStep
    split
    · rfl
    · assumption
  · next hnot =>
    rw [if_neg hnot] at h
    exact absurd h hnot

theorem frozenStep_of_fence (h : s.fence = none) : frozenStep source s = s := by
  rw [frozenStep, h]

/-- The end that a run comes to whose rounds begin at the end of a frozen reader. -/
def frozenOutcome (source : Text) (limit : Int) (s : ReaderState) : Except Stuck ReaderState :=
  if (frozenEnd source s).position < source.length then
    .error (Stuck.atPosition source limit (frozenEnd source s).position)
  else .ok (frozenEnd source s)

/-- Where nothing moves, the guard counts on and stops the loop. -/
theorem FrozenVisits.exists_stopped_idle (hfence : s.fence = none) (hlt : s.position < source.length) (idle : Nat)
    (h : FrozenVisits source limit start ⟨s, some s.position, idle⟩) :
    ∃ r, FrozenVisits source limit start r ∧
      r.outcome? source limit = some (.error (Stuck.atPosition source limit s.position)) := by
  -- The induction is on how many rounds the guard still allows.
  induction hn : (limit - idle).toNat using Nat.strong_induction_on generalizing idle with
  | _ n ih =>
      by_cases hlimit : limit ≤ idle + 1
      · refine ⟨_, h, ?_⟩
        rw [Round.outcome?, if_pos hlt, if_pos ⟨rfl, hlimit⟩]
      · have hgoes : Round.outcome? source limit ⟨s, some s.position, idle⟩ = none := by
          rw [Round.outcome?, if_pos hlt, if_neg fun hstop => hlimit hstop.2]
        have hnext := h.next hgoes (congrArg Except.ok (frozenStep_of_fence hfence))
        rw [Round.next, if_pos rfl] at hnext
        exact ih (limit - (idle + 1 : Nat)).toNat (by omega) (idle + 1) hnext rfl

theorem FrozenVisits.exists_stopped (hfence : s.fence = none) (hlt : s.position < source.length)
    {previous : Option Nat} {idle : Nat} (h : FrozenVisits source limit start ⟨s, previous, idle⟩) :
    ∃ r, FrozenVisits source limit start r ∧
      r.outcome? source limit = some (.error (Stuck.atPosition source limit s.position)) := by
  by_cases hprevious : previous = some s.position
  · subst hprevious
    exact exists_stopped_idle hfence hlt _ h
  · have hnext := h.moved hlt hprevious (congrArg Except.ok (frozenStep_of_fence hfence))
    exact exists_stopped_idle hfence hlt _ hnext

theorem FrozenVisits.exists_outcome (source : Text) (limit : Int) (start : ReaderState) :
    ∃ r, FrozenVisits source limit start r ∧ r.outcome? source limit = some (frozenOutcome source limit start) := by
  have hfirst : FrozenVisits source limit start ⟨start, none, 0⟩ := .start
  by_cases hlt : start.position < source.length
  · have hend : frozenStep source start = frozenEnd source start := (if_pos hlt).symm
    have hsecond := hfirst.moved hlt nofun (congrArg Except.ok hend)
    unfold frozenOutcome
    by_cases hleft : (frozenEnd source start).position < source.length
    · rw [if_pos hleft]
      exact exists_stopped (fence_frozenEnd hleft) hleft hsecond
    · refine ⟨_, hsecond, ?_⟩
      rw [Round.outcome?, if_neg hleft, if_neg hleft]
  · have hend : frozenEnd source start = start := if_neg hlt
    refine ⟨_, hfirst, ?_⟩
    rw [Round.outcome?, if_neg hlt, frozenOutcome, hend, if_neg hlt]

theorem FrozenVisits.first_or_left (h : FrozenVisits source limit start r) :
    r = ⟨start, none, 0⟩ ∨ r.state = frozenEnd source start := by
  induction h with
  | start => exact .inl rfl
  | @next r s _ hgoes hs ih =>
      have hlt := Round.lt_of_outcome?_eq_none hgoes
      obtain rfl := Except.ok.inj hs
      rw [Round.state_next]
      rcases ih with rfl | hleft
      · exact .inr (if_pos hlt).symm
      · rw [hleft] at hlt ⊢
        exact .inr (frozenStep_of_fence (fence_frozenEnd hlt))

theorem FrozenVisits.outcome_unique {out : Except Stuck ReaderState} (h : FrozenVisits source limit start r)
    (hout : r.outcome? source limit = some out) : out = frozenOutcome source limit start := by
  rcases Round.of_outcome?_eq_some hout with ⟨hlt, hprevious, rfl⟩ | ⟨hnot, rfl⟩
  · rcases h.first_or_left with rfl | hleft
    · cases hprevious
    · rw [hleft] at hlt ⊢
      exact (if_pos hlt).symm
  · have hleft : r.state = frozenEnd source start := by
      rcases h.first_or_left with rfl | hleft
      · exact (if_neg hnot).symm
      · exact hleft
    rw [hleft] at hnot ⊢
    exact (if_neg hnot).symm

/-! ### The stream of such a reader -/

theorem run_frozen {rest : Text} (h : rest ≠ []) (idle : Nat) :
    TokenStream.run LineReader.frozen source limit idle ⟨rest, none⟩ =
      .error (Stuck.atPosition source limit (source.length - rest.length)) := by
  -- The induction is on how many rounds the guard still allows.
  induction hn : (limit - idle).toNat using Nat.strong_induction_on generalizing idle with
  | _ n ih =>
      have hstill : ¬(LineReader.frozen.step ⟨rest, none⟩).next.rest.length < (Cursor.mk rest none).rest.length :=
        Nat.lt_irrefl rest.length
      rw [TokenStream.run, if_neg h, dif_neg hstill]
      split
      · next hlimit =>
        rw [show (LineReader.frozen.step ⟨rest, none⟩).next = ⟨rest, none⟩ from rfl,
          ih (limit - (idle + 1 : Nat)).toNat (by omega) (idle + 1) rfl]
        rfl
      · rfl

/-- An open fence is read in one round, whatever the reader of lines. -/
theorem run_fence (reader : LineReader) (directive : Text) {rest : Text} (h : rest ≠ []) (idle : Nat) :
    TokenStream.run reader source limit idle ⟨rest, some directive⟩ =
      (TokenStream.run reader source limit 0 (Fence.scan directive rest).next).map
        (TokenStream.after (Fence.scan directive rest)) := by
  have hmoves : (reader.step ⟨rest, some directive⟩).next.rest.length < (Cursor.mk rest (some directive)).rest.length :=
    Fence.length_read_rest_lt h
  rw [TokenStream.run, if_neg h, dif_pos hmoves]
  rfl

theorem run_frozen_drop (source : Text) (limit : Int) (idle position : Nat) :
    TokenStream.run LineReader.frozen source limit idle ⟨source.drop position, none⟩ =
      if position < source.length then .error (Stuck.atPosition source limit position)
      else .ok (TokenStream.atEnd none) := by
  by_cases hlt : position < source.length
  · have hposition : source.length - (source.drop position).length = position := by
      rw [List.length_drop]
      omega
    rw [run_frozen (drop_ne_nil_of_lt hlt), hposition, if_pos hlt]
  · rw [List.drop_eq_nil_of_le (Nat.not_lt.mp hlt), TokenStream.run, if_pos rfl, if_neg hlt]

theorem tokens_read_frozen (source : Text) (limit : Int) (position : Nat) (fence : Option Text) :
    (TokenStream.read LineReader.frozen source limit ⟨source.drop position, fence⟩).map TokenStream.tokens =
      (frozenOutcome source limit ⟨position, fence, []⟩).map ReaderState.tokens := by
  unfold TokenStream.read frozenOutcome
  cases fence with
  | none =>
      have hend : frozenEnd source ⟨position, none, []⟩ = ⟨position, none, []⟩ := ite_self _
      rw [run_frozen_drop, hend]
      split
      · rfl
      · rfl
  | some directive =>
      by_cases hlt : position < source.length
      · have hreaches : Reaches source ⟨position, some directive, []⟩ (Fence.scan directive (source.drop position))
            (readFence source ⟨position, some directive, []⟩) := readFence_reaches directive _
        have hend : frozenEnd source ⟨position, some directive, []⟩ =
            readFence source ⟨position, some directive, []⟩ := if_pos hlt
        have hnext : (Fence.scan directive (source.drop position)).next =
            ⟨source.drop (readFence source ⟨position, some directive, []⟩).position, none⟩ := by
          rw [hreaches.rest_eq]
          rfl
        rw [run_fence LineReader.frozen directive (drop_ne_nil_of_lt hlt), hnext, run_frozen_drop, hend]
        split
        · rfl
        · have htokens := hreaches.tokens_eq
          show Except.ok ((Fence.scan directive (source.drop position)).tokens ++ []) = Except.ok _
          rw [htokens, List.append_nil]
          rfl
      · have hend : frozenEnd source ⟨position, some directive, []⟩ = ⟨position, some directive, []⟩ := if_neg hlt
        rw [List.drop_eq_nil_of_le (Nat.not_lt.mp hlt), TokenStream.run, if_pos rfl, hend, if_neg hlt]
        rfl

/-- A reader of lines that stands still comes to one end, which is where an open fence leaves it or else where it was
put: behind the source with the tokens of the fence, or else stopped by its guard, whatever the limit, with a report of
the limit, the line, the position and the text around it. -/
theorem frozen_outcome (source : Text) (limit : Int) (position : Nat) (fence : Text) :
    let opened : Option Text := if fence = [] then none else some fence
    let start : ReaderState := ⟨position, opened, []⟩
    let left := if fence = [] ∨ source.length ≤ position then start else readFence source start
    let line := 1 + (source.take left.position).count '\n'
    let context := (source.take (left.position + 40)).drop (left.position - 40)
    let report : Stuck := ⟨limit, line, left.position, context⟩
    let outcome := if left.position < source.length then .error report else .ok left
    (∀ out, (∃ r, FrozenVisits source limit start r ∧ r.outcome? source limit = some out) ↔ out = outcome) ∧
    (TokenStream.read LineReader.frozen source limit ⟨source.drop position, opened⟩).map TokenStream.tokens =
      outcome.map ReaderState.tokens ∧
    report.message =
      "\nTokenizer made no progress after " ++ ofInt limit ++ " iterations\nLine " ++ ofNat line ++ ", position " ++
        ofNat left.position ++ "\nContext: ..." ++ context ++ "..." := by
  intro opened start left line context report outcome
  have hopened : start.fence = none ↔ fence = [] := by
    show opened = none ↔ _
    by_cases hfence : fence = []
    · exact iff_of_true (if_pos hfence) hfence
    · rw [show opened = some fence from if_neg hfence]
      exact iff_of_false nofun hfence
  have hleft : frozenEnd source start = left :=
    (frozenEnd_eq source start).trans (if_congr (or_congr_left hopened) rfl rfl)
  have houtcome : frozenOutcome source limit start = outcome := by
    have hreport : Stuck.atPosition source limit left.position = report := by
      rw [Stuck.atPosition, Nat.add_comm]
      rfl
    rw [frozenOutcome, hleft, hreport]
  refine ⟨fun out => ⟨?_, ?_⟩, ?_, rfl⟩
  · rintro ⟨r, hr, hout⟩
    exact (hr.outcome_unique hout).trans houtcome
  · rintro rfl
    exact houtcome ▸ FrozenVisits.exists_outcome source limit start
  · exact houtcome ▸ tokens_read_frozen source limit position opened

end Frozen

end AtMark.Position

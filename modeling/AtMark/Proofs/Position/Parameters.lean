import AtMark.Position.Parameters
import AtMark.Proofs.Position.Loop
import AtMark.Proofs.Token.Form

/-!
# `Proofs.Position.Parameters`: parameter lists by positions and by what is left

## What is proved

What the readers of `Position.Parameters` come to is what those of `Token.Parameters` read between the same two
positions (`readQuoted_eq`, `scanList_eq`, `consumeList_eq`); in particular they look at no character outside the
source and the guard never acts.

## How

For a quoted value the two are not alike in their steps: one puts the value together from pieces, the other reads it
character by character.  `readPieces_spec` says what the pieces are at every moment, the piece in progress included.
For a list they are: a round takes an item or passes over a character, and so does a step of `Parameters.scan`
(`advances_listRound`).  From the rounds to the loop it goes by `Loop.run_spec`, with what is left of the list standing
at the position of each round as the invariant.

## What it takes

That the limit is not behind the end of the source, and the position not behind the limit.  The readers themselves do
not check it; whoever calls them has a line or the source in hand, and both end in time.
-/

namespace AtMark.Position

open Text

variable {source rest : Text} {position limit : Nat}

/-! ## Quoted values -/

/-- The piece in progress is what stands between its start and the position; the pieces and it are the value
read so far.  They end before the closing quote or at the limit. -/
theorem readPieces_spec (start : Nat) (pending : Text) (parts : List Text)
    (h : Stands source start (pending ++ rest) limit) :
    ∃ more last left start',
      readPieces source limit (start + pending.length) start parts =
        .ok ⟨start' + last.length, start', parts ++ more⟩ ∧
      Stands source start' (last ++ left) limit ∧
      more.flatten ++ last = pending ++ (Quoted.read rest).value ∧
      (left = [] ∧ (Quoted.read rest).rest = [] ∨ left = '"' :: (Quoted.read rest).rest) ∧
      ((Quoted.read rest).owned = false ∧ more = [] ∧ start' = start ∨
        (Quoted.read rest).owned = true ∧ more ≠ []) := by
  fun_induction Quoted.read rest generalizing start pending parts with
  | case1 =>
      refine ⟨[], pending, [], start, ?_, h, ?_, .inl ⟨rfl, rfl⟩, .inl ⟨rfl, rfl, rfl⟩⟩
      · rw [readPieces, if_neg h.behind.not_lt, List.append_nil]
        rfl
      · rw [List.append_nil]
        rfl
  | case2 cs =>
      refine ⟨[], pending, '"' :: cs, start, ?_, h, ?_, .inr rfl, .inl ⟨rfl, rfl, rfl⟩⟩
      · rw [readPieces, if_pos h.behind.lt, h.behind.charAt_eq, ok_bind, if_pos rfl, List.append_nil]
        rfl
      · rw [List.append_nil]
        rfl
  | case3 c cs ih =>
      have hback := h.behind
      obtain ⟨more, last, left, start', heq, hstands, hvalue, hleft, howned⟩ :=
        ih (start + pending.length + 2) [] (parts ++ [pending, [c]]) hback.tail.tail
      refine ⟨[pending, [c]] ++ more, last, left, start', ?_, hstands, ?_, hleft, .inr ⟨rfl, ?_⟩⟩
      · rw [readPieces, if_pos hback.lt, hback.charAt_eq, ok_bind, if_neg (by decide),
          if_pos ⟨rfl, hback.tail.lt⟩, hback.tail.charAt_eq, ok_bind, h.slice_run_eq]
        rw [List.append_assoc] at heq
        exact heq
      · rw [List.flatten_append, List.append_assoc, hvalue]
        simp [Quoted.cons, Quoted.own]
      · exact List.append_ne_nil_of_left_ne_nil (List.cons_ne_nil _ _) _
  | case4 c cs hquote hslash ih =>
      have hback := h.behind
      have hc : c ≠ '"' := fun hc => hquote hc
      have hescape : ¬(c = '\\' ∧ start + pending.length + 1 < limit) := by
        rintro ⟨rfl, hlt⟩
        cases cs with
        | nil => exact hback.tail.not_lt hlt
        | cons d cs => exact hslash d cs rfl rfl
      obtain ⟨more, last, left, start', heq, hstands, hvalue, hleft, howned⟩ :=
        ih start (pending ++ [c]) parts (by rwa [List.append_assoc])
      refine ⟨more, last, left, start', ?_, hstands, ?_, hleft, howned⟩
      · rw [readPieces, if_pos hback.lt, hback.charAt_eq, ok_bind, if_neg hc, if_neg hescape]
        rw [List.length_append] at heq
        exact heq
      · rw [hvalue, List.append_assoc]
        rfl

/-- A value as it was read before a limit. -/
def valueAt (limit : Nat) (found : Quoted) : ValueAt :=
  ⟨found.value, found.owned, limit - found.rest.length⟩

theorem readQuoted_eq (h : Stands source position rest limit) :
    readQuoted source limit position = .ok (valueAt limit (Quoted.read rest)) := by
  obtain ⟨more, last, left, start, heq, hstands, hvalue, hleft, howned⟩ :=
    readPieces_spec position [] [] h
  have hstop : (if start + last.length < limit then start + last.length + 1 else start + last.length) =
      limit - (Quoted.read rest).rest.length := by
    have hback := hstands.behind
    rcases hleft with ⟨rfl, hrest⟩ | rfl
    · rw [if_neg hback.not_lt, hrest, hback.eq_limit]
      rfl
    · rw [if_pos hback.lt, ← hback.tail.position_eq]
  unfold readQuoted
  rw [show readPieces source limit position position [] = _ from heq, ok_bind]
  dsimp only
  rw [hstop, List.nil_append]
  rcases howned with ⟨howned, rfl, rfl⟩ | ⟨howned, hmore⟩
  · rw [if_pos rfl, hstands.slice_run_eq]
    rw [valueAt, howned, ← List.nil_append (Quoted.read rest).value, ← hvalue]
    rfl
  · rw [if_neg hmore, hstands.slice_run_eq, List.flatten_append, List.flatten_singleton, hvalue, valueAt, howned]
    rfl

/-! ## Items -/

theorem readValueAt_eq (h : Stands source position rest limit) :
    readValueAt source limit position = .ok (valueAt limit (Parameters.readValue rest)) := by
  have hback := (h.split isIndent).behind
  unfold readValueAt
  rw [h.skipWhile_eq, ok_bind, hback.isAt_eq, ok_bind]
  by_cases hquote : (rest.dropWhile isIndent).head? = some '"'
  · have hcons := List.eq_cons_of_mem_head? hquote
    rw [if_pos (any_beq_iff.mpr hquote)]
    rw [hcons] at hback
    rw [Parameters.readValue_quote hcons]
    exact readQuoted_eq hback.tail
  · have hbare := hback.split Parameters.isBare
    rw [if_neg (mt any_beq_iff.mp hquote), hback.skipWhile_eq, ok_bind, hbare.slice_run_eq,
      Parameters.readValue_of_head hquote, hbare.behind.position_eq]
    rfl

theorem readAssignedAt_eq (h : Stands source position rest limit) :
    readAssignedAt source limit position = .ok (valueAt limit (Parameters.readAssigned rest)) := by
  have hback := (h.split isIndent).behind
  unfold readAssignedAt
  rw [h.skipWhile_eq, ok_bind, hback.isAt_eq, ok_bind]
  by_cases hequals : (rest.dropWhile isIndent).head? = some '='
  · have hcons := List.eq_cons_of_mem_head? hequals
    rw [if_pos (any_beq_iff.mpr hequals)]
    rw [hcons] at hback
    rw [Parameters.readAssigned_equals hcons]
    exact readValueAt_eq hback.tail
  · rw [if_neg (mt any_beq_iff.mp hequals), Parameters.readAssigned_of_head hequals,
      h.position_eq]
    rfl

/-! ## Lists -/

/-- What a list read from a state on ends with. -/
def ListEnds (source : Text) (limit : Nat) (s : ListState) (out : ListState ⊕ Parameters.Window) : Prop :=
  let found := Parameters.scan (slice source s.position limit)
  if found.closed then out = .inr ⟨s.tokens ++ found.tokens, limit - found.rest.length, true⟩
  else ∃ last, out = .inl ⟨last, s.tokens ++ found.tokens⟩

/-- A list from which some items were taken ends as its remainder does. -/
theorem ListEnds.of_remainder {s : ListState} {rest left : Text} (next : ListState) (items : List Parameter)
    (h : Stands source s.position rest limit) (hnext : Stands source next.position left limit)
    (htokens : next.tokens = s.tokens ++ items.flatMap Parameter.tokens)
    (hscan : Parameters.scan rest = { Parameters.scan left with items := items ++ (Parameters.scan left).items })
    {out : ListState ⊕ Parameters.Window} (hout : ListEnds source limit next out) :
    ListEnds source limit s out := by
  unfold ListEnds at hout ⊢
  rw [hnext.slice_eq, htokens] at hout
  rw [h.slice_eq, hscan]
  unfold Parameters.Scan.tokens at hout ⊢
  dsimp only at hout ⊢
  rw [List.flatMap_append, ← List.append_assoc]
  exact hout

theorem advances_listRound {s : ListState} {c : Char} {cs : Text}
    (h : Stands source s.position (c :: cs) limit) :
    (listLoop source limit).Advances (fun s => ∃ rest, Stands source s.position rest limit)
      (ListEnds source limit) s := by
  have hstop : nameEnd source limit s.position = s.position + (Name.take (c :: cs)).length := h.nameEnd_eq
  by_cases hclose : c = ')'
  · subst hclose
    refine .leave ⟨s.tokens, s.position + 1, true⟩ ?_ (Nat.lt_succ_self _) ?_
    · show listRound source limit s = _
      rw [listRound, h.charAt_eq, ok_bind, if_pos rfl]
      rfl
    · unfold ListEnds
      rw [h.slice_eq, Parameters.scan, if_pos rfl, h.tail.position_eq]
      show _ = _
      rw [Parameters.Scan.tokens, List.flatMap_nil, List.append_nil]
  · cases hname : Name.isNameChar c with
    | false =>
        refine .next { s with position := s.position + 1 } ?_ (Nat.lt_succ_self _) ⟨cs, h.tail⟩ ?_
        · have htake : Name.take (c :: cs) = [] := List.takeWhile_cons_of_neg (Bool.eq_false_iff.mp hname)
          show listRound source limit s = _
          rw [listRound, h.charAt_eq, ok_bind, if_neg hclose]
          split
          · rfl
          · rw [hstop, htake]
            exact if_pos rfl
        · refine fun out => .of_remainder { s with position := s.position + 1 } [] h h.tail
            (List.append_nil _).symm ?_
          rw [Parameters.scan, if_neg hclose, if_neg (Bool.eq_false_iff.mp hname)]
          rfl
    | true =>
        have htake : Name.take (c :: cs) = c :: Name.take cs := List.takeWhile_cons_of_pos hname
        have hrest : Stands source s.position ((c :: Name.take cs) ++ Name.rest cs) limit := by
          rw [List.cons_append, Name.take_append_rest]
          exact h
        have hleft := h.tail.of_suffix (Parameters.readItem_rest_suffix c cs)
        have hblank : ¬(isBlank c = true ∨ c = ',') := by
          rintro (hblank | rfl)
          · exact Bool.noConfusion (hblank.symm.trans (Name.isBlank_eq_false hname))
          · exact Bool.noConfusion hname
        refine .next ⟨limit - (Parameters.readItem c cs).2.length, s.tokens ++ (Parameters.readItem c cs).1.tokens⟩
          ?_ ?_ ⟨_, hleft⟩ ?_
        · show listRound source limit s = _
          rw [listRound, h.charAt_eq, ok_bind, if_neg hclose, if_neg hblank, hstop, htake,
            if_neg (by simp)]
          dsimp only
          rw [hrest.slice_run_eq, readAssignedAt_eq hrest.behind, ok_bind]
          rfl
        · exact h.lt_of_suffix (Parameters.readItem_rest_suffix c cs)
        · refine fun out => .of_remainder _ [(Parameters.readItem c cs).1] h hleft ?_ ?_
          · exact congrArg _ (List.append_nil _).symm
          · rw [Parameters.scan, if_neg hclose, if_pos hname]
            rfl

theorem listLoop_spec (stuckLimit : Int) (report : Nat → Stuck) {s : ListState}
    (h : Stands source s.position rest limit) :
    ∃ out, (listLoop source limit).run stuckLimit report 0 s = .ok out ∧ ListEnds source limit s out := by
  refine Loop.run_spec _ (fun s => ∃ rest, Stands source s.position rest limit) (ListEnds source limit) ?_ ?_
    stuckLimit report 0 ⟨rest, h⟩
  · rintro s ⟨rest, h⟩ hstop
    cases rest with
    | nil =>
        unfold ListEnds
        rw [h.slice_eq, Parameters.scan]
        exact ⟨s.position, congrArg Sum.inl (by rw [Parameters.Scan.tokens, List.flatMap_nil, List.append_nil])⟩
    | cons c cs => exact absurd h.lt hstop
  · rintro s ⟨rest, h⟩ hlt
    cases rest with
    | nil => exact absurd hlt h.not_lt
    | cons c cs => exact advances_listRound h

/-- A list reads between two positions of a source what `Parameters.scanBetween` says. -/
theorem scanList_eq (stuckLimit : Int) (hposition : position ≤ limit) (hlimit : limit ≤ source.length) :
    scanList source stuckLimit position limit = .ok (Parameters.scanBetween source position limit) := by
  have h := Stands.slice_of_le hposition hlimit
  obtain ⟨out, hrun, hends⟩ :=
    listLoop_spec stuckLimit (Stuck.atPosition source stuckLimit) (s := ⟨position, []⟩) h
  have hstop := h.add_length_sub (Parameters.scan_rest_suffix _)
  unfold scanList
  rw [hrun, ok_bind]
  unfold ListEnds at hends
  unfold Parameters.scanBetween
  dsimp only at hends ⊢
  rw [← slice]
  cases hclosed : (Parameters.scan (slice source position limit)).closed with
  | true =>
      rw [hclosed, if_pos rfl] at hends
      subst hends
      rw [if_pos rfl, hstop]
      rfl
  | false =>
      rw [hclosed, if_neg Bool.false_ne_true] at hends
      obtain ⟨last, rfl⟩ := hends
      rfl

theorem consumeList_eq (stuckLimit : Int) (hposition : position ≤ source.length) :
    consumeList source stuckLimit position = .ok (Parameters.recoverAt source position) := by
  have h := Stands.drop_of_le hposition
  have hwhole : (source.take source.length).drop position = source.drop position := by rw [List.take_length]
  have hline : (source.take (lineEnd source position)).drop position = firstLine (source.drop position) :=
    h.line.slice_eq
  have hstop := h.add_length_sub (Parameters.scan_rest_suffix _)
  unfold consumeList Parameters.recoverAt Parameters.recover
  rw [scanList_eq stuckLimit hposition (Nat.le_refl _), ok_bind]
  dsimp only
  rw [scanList_eq stuckLimit h.line.le (Nat.sub_le _ _)]
  unfold Parameters.scanBetween
  dsimp only
  rw [hwhole, hline]
  by_cases hclosed : (Parameters.scan (source.drop position)).closed = true
  · rw [if_pos hclosed, if_pos hclosed, if_pos hclosed, hstop]
    rfl
  · rw [if_neg hclosed, if_neg hclosed]
    rfl

end AtMark.Position

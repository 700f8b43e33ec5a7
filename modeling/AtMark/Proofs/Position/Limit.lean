import AtMark.Proofs.Position.Parameters
import AtMark.Proofs.Token.ClosedList

/-!
# `Proofs.Position.Limit`: lists and the limit they are read before

A list is read between two positions, and nothing is looked at from the second on.  A key, a value, a quotation or an
escape that the limit cuts off reads otherwise with more text behind, but none of them closes a list.  So the reader
either comes to the limit or stops behind the parenthesis of a list that stands before it (`scanBetween_of_isList`,
`exists_isList_of_terminated`), and in the second case a later limit makes no difference (`scanList_monotone`).

A list is looked for in the whole source first and, if it is not closed there, once more up to the end of its line.
The second search cannot succeed where the first one failed (`consumeList_of_open`), so a list is either read up to its
parenthesis or given up with the items of its line.

The items of a list that is not closed do depend on the limit, and nothing is said of them: the last key or value may
be a part of what stands there without the limit.
-/

namespace AtMark.Position

open Parameters (IsList scanBetween)

variable {source front : Text} {position limit first second : Nat} {items : List Parameter}

theorem scanBetween_of_isList (hfront : front <+: slice source position limit) (hlist : IsList front items) :
    scanBetween source position limit = ⟨items.flatMap Parameter.tokens, position + front.length, true⟩ := by
  obtain ⟨rest, hrest⟩ := hfront
  have hscan : Parameters.scan (slice source position limit) = ⟨items, rest, true⟩ :=
    Parameters.scan_eq_closed_iff.mpr ⟨front, hrest.symm, hlist⟩
  have hlength : (slice source position limit).length - rest.length = front.length := by
    rw [← hrest, List.length_append, Nat.add_sub_cancel]
  unfold scanBetween
  dsimp only
  rw [← slice, hscan, hlength]
  rfl

theorem exists_isList_of_terminated (h : (scanBetween source position limit).terminated = true) :
    ∃ front items, front <+: slice source position limit ∧ IsList front items := by
  obtain ⟨front, hfront, hlist⟩ := Parameters.exists_isList (s := slice source position limit) h
  exact ⟨front, _, ⟨_, hfront.symm⟩, hlist⟩

theorem scanBetween_of_open (h : (scanBetween source position limit).terminated = false) :
    scanBetween source position limit = ⟨(scanBetween source position limit).tokens, limit, false⟩ := by
  have hopen : (Parameters.scan (slice source position limit)).closed = false := h
  unfold scanBetween
  dsimp only
  rw [← slice, hopen]
  rfl

theorem scanBetween_eq_of_le (hfirst : first ≤ second) (h : (scanBetween source position first).terminated = true) :
    scanBetween source position second = scanBetween source position first := by
  obtain ⟨front, items, hfront, hlist⟩ := exists_isList_of_terminated h
  rw [scanBetween_of_isList hfront hlist,
    scanBetween_of_isList (hfront.trans (slice_prefix_slice source position hfirst)) hlist]

theorem terminated_iff (hposition : position ≤ limit) (hlimit : limit ≤ source.length) :
    (scanBetween source position limit).terminated = true ↔
      ∃ inner items, slice source position (scanBetween source position limit).position = inner ++ [')'] ∧
        IsList (inner ++ [')']) items ∧
        (scanBetween source position limit).tokens = items.flatMap Parameter.tokens := by
  constructor
  · intro h
    obtain ⟨front, items, hfront, hlist⟩ := exists_isList_of_terminated h
    obtain ⟨inner, rfl⟩ := hlist.exists_eq_append
    rw [scanBetween_of_isList hfront hlist]
    obtain ⟨rest, hrest⟩ := hfront
    have hstands := Stands.slice_of_le hposition hlimit
    rw [← hrest] at hstands
    exact ⟨inner, items, hstands.slice_run_eq, hlist, rfl⟩
  · rintro ⟨inner, items, hslice, hlist, -⟩
    by_contra hopen
    -- Otherwise the reader came to the limit, and the list ends there.
    rw [scanBetween_of_open (Bool.not_eq_true _ ▸ hopen)] at hslice
    rw [scanBetween_of_isList (hslice ▸ List.prefix_refl _) hlist] at hopen
    exact hopen rfl

theorem position_mem (hposition : position ≤ limit) (hlimit : limit ≤ source.length) :
    position ≤ (scanBetween source position limit).position ∧
      (scanBetween source position limit).position ≤ limit := by
  cases h : (scanBetween source position limit).terminated with
  | true =>
      obtain ⟨front, items, hfront, hlist⟩ := exists_isList_of_terminated h
      rw [scanBetween_of_isList hfront hlist]
      obtain ⟨rest, hrest⟩ := hfront
      have hstands := Stands.slice_of_le hposition hlimit
      rw [← hrest] at hstands
      exact ⟨Nat.le_add_right _ _, hstands.behind.le⟩
  | false =>
      rw [scanBetween_of_open h]
      exact ⟨hposition, Nat.le_refl limit⟩

/-- A list that is not closed in the source is read again up to the end of its line, and is not closed there either. -/
theorem consumeList_of_open (stuckLimit : Int) (hposition : position ≤ source.length)
    (hopen : (scanBetween source position source.length).terminated = false) :
    (scanBetween source position (lineEnd source position)).terminated = false ∧
      consumeList source stuckLimit position = .ok (scanBetween source position (lineEnd source position)) := by
  have hend : lineEnd source position ≤ source.length := Nat.sub_le _ _
  have hline : (scanBetween source position (lineEnd source position)).terminated = false := by
    by_contra hclosed
    rw [Bool.not_eq_false] at hclosed
    rw [scanBetween_eq_of_le hend hclosed, hclosed] at hopen
    cases hopen
  have hstart : position ≤ lineEnd source position := (Stands.drop_of_le hposition).line.le
  refine ⟨hline, ?_⟩
  unfold consumeList
  rw [scanList_eq stuckLimit hposition (Nat.le_refl _), ok_bind, hopen, if_neg Bool.false_ne_true]
  dsimp only
  rw [scanList_eq stuckLimit hstart hend, ok_bind]
  exact congrArg Except.ok (scanBetween_of_open hline).symm

/-- A list is read to a position between its start and the limit, and is closed exactly if what was read is a list with
its closing parenthesis.  A closed list stays as it is with any later limit; so a list that is not closed in the whole
source is not closed on its line, where it is read again. -/
theorem scanList_monotone (source : Text) (stuckLimit : Int) {position first second : Nat}
    (hposition : position ≤ first) (hfirst : first ≤ second) (hsecond : second ≤ source.length) :
    ∃ window, scanList source stuckLimit position first = .ok window ∧
      scanBetween source position first = window ∧
      position ≤ window.position ∧ window.position ≤ first ∧
      (window.terminated = true ↔ ∃ inner items, slice source position window.position = inner ++ [')'] ∧
        IsList (inner ++ [')']) items ∧ window.tokens = items.flatMap Parameter.tokens) ∧
      (window.terminated = true → scanList source stuckLimit position second = .ok window) ∧
      ∃ whole, scanList source stuckLimit position source.length = .ok whole ∧
        (whole.terminated = false → ∃ line, scanList source stuckLimit position (lineEnd source position) = .ok line ∧
          line.terminated = false ∧ consumeList source stuckLimit position = .ok line) := by
  have hlength : first ≤ source.length := hfirst.trans hsecond
  obtain ⟨hleft, hright⟩ := position_mem hposition hlength
  refine ⟨_, scanList_eq stuckLimit hposition hlength, rfl, hleft, hright, terminated_iff hposition hlength, ?_,
    _, scanList_eq stuckLimit (hposition.trans hlength) (Nat.le_refl _), ?_⟩
  · intro hclosed
    rw [scanList_eq stuckLimit (hposition.trans hfirst) hsecond, scanBetween_eq_of_le hfirst hclosed]
  · intro hopen
    have hstart := (Stands.drop_of_le (hposition.trans hlength)).line.le
    obtain ⟨hline, hconsume⟩ := consumeList_of_open stuckLimit (hposition.trans hlength) hopen
    exact ⟨_, scanList_eq stuckLimit hstart (Nat.sub_le _ _), hline, hconsume⟩

/-- The parenthesis in the quotation and the one behind the list do not end it. -/
theorem scanList_monotone_quotation :
    let source : Text := "k=\"a)\\\"\", l= v) m)"
    let window : Parameters.Window :=
      ⟨[⟨.parameterKey, "k", false⟩, ⟨.parameterValue, "a)\"", true⟩, ⟨.parameterKey, "l", false⟩,
        ⟨.parameterValue, "v", false⟩], 15, true⟩
    0 ≤ 16 ∧ 16 ≤ 18 ∧ 18 ≤ source.length ∧
      scanList source 1000 0 16 = .ok window ∧ scanList source 1000 0 18 = .ok window ∧
      ∃ inner items, slice source 0 15 = inner ++ [')'] ∧ IsList (inner ++ [')']) items ∧
        window.tokens = items.flatMap Parameter.tokens := by
  intro source window
  have hlength : 18 ≤ source.length := by decide
  obtain ⟨found, hscan, hfound, -, -, hclosed, hlater, -⟩ :=
    scanList_monotone source 1000 (Nat.zero_le 16) (by decide : 16 ≤ 18) hlength
  have hwindow : scanBetween source 0 16 = window := by decide +kernel
  obtain rfl : window = found := hwindow.symm.trans hfound
  exact ⟨by decide, by decide, hlength, hscan, hlater rfl, hclosed.mp rfl⟩

end AtMark.Position

import AtMark.Position.Access
import AtMark.Proofs.Text.Line
import Mathlib.Data.List.Infix

/-!
# `Proofs.Position.Access`: what stands at a position

`Position` reads a source by positions, `Token` reads what is left of it.  `Stands source position rest limit` ties the
two ways together: at the position stands `rest`, and it ends at the limit.

Where a text stands, its characters can be looked at (`Stands.charAt_eq`), a run is skipped to its end
(`Stands.skipWhile_eq`), the line at its start ends where its first line does (`Stands.line`), and behind a part of it
stands the other part (`Stands.behind`).  So a reader by positions that starts where a text stands and only looks where
it has asked first cannot fault, and what it comes to can be told from the text.

The proofs about each reader in `Proofs.Position` take this form: where `rest` stands, the reader by positions gives
what the reader of `rest` gives, with a position in the place of what is left.  Bounds, where they are needed as for a
guard that compares positions, come from the lengths of texts (`Stands.position_eq`, `Stands.lt_of_suffix`).

The limit is part of the relation because some readers stop before the end of the source.  A text may stand at a
position up to several limits; which of its beginnings is meant is what the limit says (`slice_prefix_slice`).
-/

namespace AtMark.Position

open Text

/-! ## Results and slices -/

theorem ok_bind {α β : Type} (a : α) (f : α → Except Fault β) : (Except.ok a >>= f) = f a := rfl

theorem any_beq_iff {found : Option Char} {c : Char} : found.any (· == c) = true ↔ found = some c := by
  cases found <;> simp

theorem slice_self (source : Text) (start : Nat) : slice source start start = [] :=
  List.drop_eq_nil_of_le (List.length_take_le start source)

/-- The text up to a limit begins the text up to a later one. -/
theorem slice_prefix_slice (source : Text) (start : Nat) {first second : Nat} (h : first ≤ second) :
    slice source start first <+: slice source start second :=
  List.IsPrefix.drop (List.take_prefix_take_left h) start

theorem slice_succ {source : Text} {start position : Nat} {c : Char} (hstart : start ≤ position)
    (hget : source[position]? = some c) : slice source start (position + 1) = slice source start position ++ [c] := by
  obtain ⟨hlt, -⟩ := List.getElem?_eq_some_iff.mp hget
  have hle : start ≤ (source.take position).length := by
    rw [List.length_take]
    omega
  rw [slice, List.take_add_one, hget, List.drop_append_of_le_length hle]
  rfl

/-- Before the end of the source something is left. -/
theorem drop_ne_nil_of_lt {source : Text} {position : Nat} (h : position < source.length) : source.drop position ≠ [] :=
  fun hnil => Nat.not_le.mpr h (List.drop_eq_nil_iff.mp hnil)

/-! ## What stands at a position -/

/-- At the position stands the text, and it ends at the limit. -/
def Stands (source : Text) (position : Nat) (rest : Text) (limit : Nat) : Prop :=
  ∃ front back, source = front ++ (rest ++ back) ∧ front.length = position ∧
    position + rest.length = limit

namespace Stands

variable {source run rest mark : Text} {position limit : Nat} {c : Char} {p : Char → Bool}

/-! ### Where texts stand -/

theorem slice_of_le (hposition : position ≤ limit) (hlimit : limit ≤ source.length) :
    Stands source position (slice source position limit) limit := by
  refine ⟨source.take position, source.drop limit, ?_, ?_, ?_⟩
  · calc source
        = source.take limit ++ source.drop limit := (List.take_append_drop limit source).symm
      _ = (source.take limit).take position ++ slice source position limit ++ source.drop limit := by
          rw [slice, List.take_append_drop position]
      _ = source.take position ++ (slice source position limit ++ source.drop limit) := by
          rw [List.take_take, Nat.min_eq_left hposition, List.append_assoc]
  · rw [List.length_take]
    omega
  · rw [slice, List.length_drop, List.length_take]
    omega

theorem drop_of_le (h : position ≤ source.length) :
    Stands source position (source.drop position) source.length := by
  refine ⟨source.take position, [], ?_, ?_, ?_⟩
  · rw [List.append_nil, List.take_append_drop]
  · rw [List.length_take]
    omega
  · rw [List.length_drop]
    omega

theorem behind (h : Stands source position (run ++ rest) limit) :
    Stands source (position + run.length) rest limit := by
  obtain ⟨front, back, hsource, hfront, hlimit⟩ := h
  refine ⟨front ++ run, back, ?_, ?_, ?_⟩
  · rw [hsource, List.append_assoc, List.append_assoc]
  · rw [List.length_append, hfront]
  · rw [← hlimit, List.length_append, Nat.add_assoc]

theorem tail (h : Stands source position (c :: rest) limit) : Stands source (position + 1) rest limit := by
  have hsplit : Stands source position ([c] ++ rest) limit := h
  exact hsplit.behind

theorem narrow (h : Stands source position (run ++ rest) limit) :
    Stands source position run (position + run.length) := by
  obtain ⟨front, back, hsource, hfront, -⟩ := h
  exact ⟨front, rest ++ back, by rw [hsource, List.append_assoc], hfront, rfl⟩

theorem of_suffix {left : Text} (h : Stands source position rest limit) (hleft : left <:+ rest) :
    Stands source (limit - left.length) left limit := by
  obtain ⟨run, rfl⟩ := hleft
  have hposition : position + run.length = limit - left.length := by
    obtain ⟨front, back, -, -, hlimit⟩ := h
    rw [List.length_append] at hlimit
    omega
  exact hposition ▸ h.behind

/-! ### What the position tells -/

theorem lt (h : Stands source position (c :: rest) limit) : position < limit := by
  obtain ⟨front, back, -, -, hlimit⟩ := h
  rw [List.length_cons] at hlimit
  omega

theorem not_lt (h : Stands source position [] limit) : ¬position < limit := by
  obtain ⟨front, back, -, -, hlimit⟩ := h
  rw [List.length_nil] at hlimit
  omega

theorem le (h : Stands source position rest limit) : position ≤ limit := by
  obtain ⟨front, back, -, -, hlimit⟩ := h
  omega

theorem position_eq (h : Stands source position rest limit) : position = limit - rest.length := by
  obtain ⟨front, back, -, -, hlimit⟩ := h
  omega

theorem add_length_sub {left : Text} (h : Stands source position rest limit) (hleft : left <:+ rest) :
    position + (rest.length - left.length) = limit - left.length := by
  have hle := hleft.length_le
  obtain ⟨front, back, -, -, hlimit⟩ := h
  omega

theorem lt_of_suffix {left : Text} (h : Stands source position (c :: rest) limit) (hleft : left <:+ rest) :
    position < limit - left.length := by
  have hle := hleft.length_le
  obtain ⟨front, back, -, -, hlimit⟩ := h
  rw [List.length_cons] at hlimit
  omega

theorem eq_limit (h : Stands source position [] limit) : position = limit :=
  h.position_eq

theorem slice_eq (h : Stands source position rest limit) : slice source position limit = rest := by
  obtain ⟨front, back, rfl, rfl, rfl⟩ := h
  rw [slice, ← List.append_assoc, ← List.length_append, List.take_left, List.drop_left]

theorem slice_run_eq (h : Stands source position (run ++ rest) limit) :
    slice source position (position + run.length) = run :=
  h.narrow.slice_eq

theorem drop_eq (h : Stands source position rest source.length) : source.drop position = rest := by
  have hslice := h.slice_eq
  rw [slice, List.take_length] at hslice
  exact hslice

/-! ### Looking ahead -/

theorem charAt_eq (h : Stands source position (c :: rest) limit) : charAt source position = .ok c := by
  obtain ⟨front, back, rfl, rfl, -⟩ := h
  have hget : (front ++ (c :: rest ++ back))[front.length]? = some c := by
    rw [List.getElem?_append_right (Nat.le_refl _), Nat.sub_self]
    rfl
  unfold charAt
  rw [hget]

theorem isAt_eq (h : Stands source position rest limit) (p : Char → Bool) :
    isAt source p limit position = .ok (rest.head?.any p) := by
  unfold isAt
  cases rest with
  | nil => rw [if_neg h.not_lt]; rfl
  | cons c rest => rw [if_pos h.lt, h.charAt_eq]; rfl

theorem skipWhile_eq (h : Stands source position rest limit) (p : Char → Bool) :
    skipWhile source p limit position = .ok (position + (rest.takeWhile p).length) := by
  induction rest generalizing position with
  | nil =>
      rw [skipWhile, if_neg h.not_lt]
      rfl
  | cons c rest ih =>
      rw [skipWhile, if_pos h.lt, h.charAt_eq, ok_bind, List.takeWhile_cons]
      cases hc : p c with
      | false => rfl
      | true =>
          rw [if_pos rfl, if_pos rfl, ih h.tail, List.length_cons, Nat.add_assoc, Nat.add_comm 1]

/-- A text is the run of a class at its start and what stands behind the run. -/
theorem split (h : Stands source position rest limit) (p : Char → Bool) :
    Stands source position (rest.takeWhile p ++ rest.dropWhile p) limit := by
  rw [List.takeWhile_append_dropWhile]
  exact h

theorem lineEnd_eq (h : Stands source position rest source.length) :
    lineEnd source position = position + (firstLine rest).length := by
  have hdrop := h.drop_eq
  have hlength := congrArg List.length (firstLine_append_fromLineEnd rest)
  rw [List.length_append] at hlength
  obtain ⟨front, back, -, -, hlimit⟩ := h
  rw [lineEnd, hdrop]
  omega

/-- The line at a position stands there, up to its end. -/
theorem line (h : Stands source position rest source.length) :
    Stands source position (firstLine rest) (lineEnd source position) := by
  rw [h.lineEnd_eq]
  exact (h.split isInLine).narrow

theorem nameEnd_eq (h : Stands source position rest limit) :
    nameEnd source limit position = position + (Name.take rest).length := by
  rw [nameEnd, h.slice_eq]

theorem startsWith_eq (h : Stands source position rest source.length) (mark : Text) :
    startsWith mark source position = (Search.skip? mark rest).isSome := by
  rw [startsWith, h.drop_eq]

theorem find_eq (h : Stands source position rest limit) (mark : Text) :
    find mark source limit position =
      (Search.breakOn mark rest).map fun (before, _) => position + before.length := by
  rw [find, h.slice_eq]

end Stands
end AtMark.Position

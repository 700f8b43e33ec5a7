/-!
# `Search`: finding a mark in a sequence

A mark is a fixed run of items, a marker such as `@end` in text or a run of bytes.  Every search answers
with the pieces around the mark instead of a position, so that what was read and what is left are at hand
and the three of them always rebuild the sequence (`eq_of_breakOn`, `eq_of_breakOnLast`).
-/

namespace AtMark.Search

variable {α : Type} [DecidableEq α]

/-- What follows the mark when the sequence starts with it. -/
def skip? : List α → List α → Option (List α)
  | [], s => some s
  | _ :: _, [] => none
  | m :: ms, x :: xs => if m = x then skip? ms xs else none

theorem skip?_eq_some_iff {mark s rest : List α} :
    skip? mark s = some rest ↔ s = mark ++ rest := by
  induction mark generalizing s with
  | nil => simp [skip?]
  | cons m ms ih =>
    cases s with
    | nil => simp [skip?]
    | cons x xs =>
      by_cases h : m = x
      · simp [skip?, h, ih]
      · simp [skip?, h, Ne.symm h]

/-- What precedes the mark when the sequence ends with it. -/
def cutEnd? (mark s : List α) : Option (List α) :=
  (skip? mark.reverse s.reverse).map List.reverse

theorem cutEnd?_eq_some_iff {mark s front : List α} :
    cutEnd? mark s = some front ↔ s = front ++ mark := by
  unfold cutEnd?
  rw [Option.map_eq_some_iff]
  constructor
  · rintro ⟨r, hr, rfl⟩
    have h := congrArg List.reverse (skip?_eq_some_iff.1 hr)
    simpa using h
  · rintro rfl
    exact ⟨front.reverse, skip?_eq_some_iff.2 (by simp), by simp⟩

/-- The pieces before and after the first occurrence of the mark. -/
def breakOn (mark : List α) : List α → Option (List α × List α)
  | [] => (skip? mark []).map fun after => ([], after)
  | x :: xs =>
    match skip? mark (x :: xs) with
    | some after => some ([], after)
    | none => (breakOn mark xs).map fun (before, after) => (x :: before, after)

theorem eq_of_breakOn {mark s before after : List α} (h : breakOn mark s = some (before, after)) :
    s = before ++ mark ++ after := by
  induction s generalizing before with
  | nil =>
    obtain ⟨r, hr, he⟩ := Option.map_eq_some_iff.1 h
    cases he
    simpa using skip?_eq_some_iff.1 hr
  | cons x xs ih =>
    rw [breakOn] at h
    split at h
    · next r hr =>
      cases h
      simpa using skip?_eq_some_iff.1 hr
    · obtain ⟨⟨b, a⟩, hb, he⟩ := Option.map_eq_some_iff.1 h
      cases he
      simp [ih hb]

theorem length_of_breakOn {mark s before after : List α} (h : breakOn mark s = some (before, after)) :
    s.length = before.length + mark.length + after.length := by
  simp [eq_of_breakOn h]
  omega

/-- The pieces before and after the last occurrence of the mark. -/
def breakOnLast (mark : List α) : List α → Option (List α × List α)
  | [] => (skip? mark []).map fun after => ([], after)
  | x :: xs =>
    match breakOnLast mark xs with
    | some (before, after) => some (x :: before, after)
    | none => (skip? mark (x :: xs)).map fun after => ([], after)

theorem eq_of_breakOnLast {mark s before after : List α}
    (h : breakOnLast mark s = some (before, after)) : s = before ++ mark ++ after := by
  induction s generalizing before after with
  | nil =>
    obtain ⟨r, hr, he⟩ := Option.map_eq_some_iff.1 h
    cases he
    simpa using skip?_eq_some_iff.1 hr
  | cons x xs ih =>
    rw [breakOnLast] at h
    split at h
    · next b a hb =>
      cases h
      simp [ih hb]
    · obtain ⟨r, hr, he⟩ := Option.map_eq_some_iff.1 h
      cases he
      simpa using skip?_eq_some_iff.1 hr

/-- Writes `new` for every occurrence of a mark, from left to right and never into what was just
written.  The empty mark occurs between any two items and at both ends. -/
def replaceAll (mark new s : List α) : List α :=
  if _ : mark = [] then
    new ++ s.flatMap fun x => x :: new
  else
    match _ : breakOn mark s with
    | none => s
    | some (before, after) => before ++ new ++ replaceAll mark new after
termination_by s.length
decreasing_by
  have := length_of_breakOn ‹_›
  have : 0 < mark.length := List.length_pos_iff.2 ‹_›
  omega

end AtMark.Search

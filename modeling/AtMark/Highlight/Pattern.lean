import AtMark.Search
import AtMark.Text.Basic

/-!
# `Highlight.Pattern`: patterns of text

A pattern may match the start of a text in several ways, and they are tried in a fixed order: of two alternatives
the first before the second, and a repetition as long as it can be before any shorter one.  What is to follow a
pattern decides which way is taken: if it cannot go on behind one of them, the next one is tried.  So a pattern is
run with what is to follow it.
-/

namespace AtMark.Highlight

/-- A match at the start of a text: how long it is, and what is left. -/
structure Match (s : Text) where
  length : Nat
  rest : Text
  length_le : length ≤ s.length
  drop_eq : s.drop length = rest

namespace Match

variable {s : Text}

/-- What is matched. -/
def taken (found : Match s) : Text :=
  s.take found.length

theorem taken_append_rest (found : Match s) : found.taken ++ found.rest = s := by
  rw [taken, ← found.drop_eq, List.take_append_drop]

theorem length_rest (found : Match s) : found.rest.length = s.length - found.length := by
  rw [← found.drop_eq, List.length_drop]

theorem length_rest_lt {found : Match s} (h : found.length ≠ 0) : found.rest.length < s.length := by
  have hle := found.length_le
  rw [found.length_rest]
  omega

/-- The match of nothing. -/
def nothing (s : Text) : Match s where
  length := 0
  rest := s
  length_le := Nat.zero_le _
  drop_eq := rfl

/-- The match of a text at the start of a longer one. -/
def ofAppend (w rest : Text) (h : s = w ++ rest) : Match s where
  length := w.length
  rest := rest
  length_le := by simp [h]
  drop_eq := by simp [h]

/-- A match and one behind it. -/
def append (first : Match s) (second : Match first.rest) : Match s where
  length := first.length + second.length
  rest := second.rest
  length_le := by
    have hfirst := first.length_le
    have hsecond := second.length_le
    rw [first.length_rest] at hsecond
    omega
  drop_eq := by rw [← List.drop_drop, first.drop_eq, second.drop_eq]

end Match

/-- Patterns of text. -/
inductive Pattern where
  /-- One character of a class. -/
  | one (p : Char → Bool)
  /-- A given text. -/
  | word (w : Text)
  /-- Nothing, but not in front of a character of a class. -/
  | notBefore (p : Char → Bool)
  /-- One pattern behind another. -/
  | seq (first second : Pattern)
  /-- One pattern, or else another. -/
  | alt (first second : Pattern)
  /-- A pattern any number of times. -/
  | star (body : Pattern)

namespace Pattern

variable {α : Type}

/-- Runs rounds behind a match, as often as can be and only then less often.  A round that matches nothing is not
one. -/
def repeated (round : ∀ s : Text, (Match s → Option α) → Option α) {s : Text} (found : Match s)
    (next : Match s → Option α) : Option α :=
  (round found.rest fun more =>
    if _ : more.length = 0 then none else repeated round (found.append more) next).orElse
  fun _ => next found
termination_by found.rest.length
decreasing_by exact Match.length_rest_lt ‹_›

/-- Matches a pattern at the start of a text in the first way behind which can be gone on. -/
def run : Pattern → ∀ s : Text, (Match s → Option α) → Option α
  | one p, s, next =>
    match s with
    | c :: cs => if p c then next (.ofAppend [c] cs rfl) else none
    | [] => none
  | word w, s, next =>
    match h : Search.skip? w s with
    | some rest => next (.ofAppend w rest (Search.skip?_eq_some_iff.mp h))
    | none => none
  | notBefore p, s, next => if s.head?.any p then none else next (.nothing s)
  | seq first second, s, next =>
    first.run s fun before => second.run before.rest fun behind => next (before.append behind)
  | alt first second, s, next => (first.run s next).orElse fun _ => second.run s next
  | star body, s, next => repeated body.run (.nothing s) next

/-- A pattern at least once. -/
def plus (body : Pattern) : Pattern :=
  seq body (star body)

/-- A pattern at most so many times. -/
def upTo (body : Pattern) : Nat → Pattern
  | 0 => word []
  | n + 1 => alt (seq body (upTo body n)) (word [])

/-- The first of some texts. -/
def anyOf (words : List Text) : Pattern :=
  words.foldr (fun w others => alt (word w) others) (one fun _ => false)

end Pattern
end AtMark.Highlight

import AtMark.Proofs.Inline.CodeSpan
import AtMark.Proofs.Inline.Emphasis

/-!
# `Proofs.Inline.Backslash`: text written behind backslashes

## What is proved

Two of the inline passes know a backslash, and with it any text at all can be written: put one before each sign of the
pass, and the pass gives the text back (`Inline.passes_withBackslashes`).

## How

The two read a backslash in different ways.  For the first pass it is a sign of its own, so every backslash of the text
is written twice, and what is written is guarded to its end.  The last pass sees a backslash only where an asterisk
stands right behind it.  There a backslash of the text is written once, and it stays a character because nothing that
is written begins with an asterisk (`Text.head?_withBackslashes`), also if the text has an asterisk next.

## What is not

That one text can be written for both passes at once.  The first pass takes away backslashes that the last one would
need, so each statement is about its pass alone.
-/

namespace AtMark

namespace Text

variable {c : Char} {signs s : Text}

/-- The text with a backslash before each of the signs. -/
def withBackslashes (signs s : Text) : Text :=
  s.flatMap fun c => if c ∈ signs then ['\\', c] else [c]

theorem withBackslashes_cons_of_mem (hc : c ∈ signs) (s : Text) :
    withBackslashes signs (c :: s) = '\\' :: c :: withBackslashes signs s := by
  unfold withBackslashes
  rw [List.flatMap_cons, if_pos hc]
  rfl

theorem withBackslashes_cons_of_not_mem (hc : c ∉ signs) (s : Text) :
    withBackslashes signs (c :: s) = c :: withBackslashes signs s := by
  unfold withBackslashes
  rw [List.flatMap_cons, if_neg hc]
  rfl

/-- What is written begins with no sign, if a backslash is none. -/
theorem head?_withBackslashes (hslash : '\\' ∉ signs) (s : Text) :
    ∀ c ∈ (withBackslashes signs s).head?, c ∉ signs := by
  intro c hc
  cases s with
  | nil => exact absurd hc (by simp [withBackslashes])
  | cons d s =>
      by_cases hd : d ∈ signs
      · rw [withBackslashes_cons_of_mem hd] at hc
        cases hc
        exact hslash
      · rw [withBackslashes_cons_of_not_mem hd] at hc
        cases hc
        exact hd

end Text

open Text

/-! ## The first pass -/

namespace CodeSpan

/-- The signs of the first pass. -/
def signs : Text := "\x60$\\"

theorem mem_signs_iff {c : Char} : c ∈ signs ↔ isEscapable c = true := by
  simp [signs, isEscapable, or_assoc]

theorem guarded_withBackslashes (t : Text) : Guarded (withBackslashes signs t) := by
  induction t with
  | nil => exact .nil
  | cons c t ih =>
      by_cases hc : c ∈ signs
      · rw [withBackslashes_cons_of_mem hc]
        exact .escaped ih
      · rw [withBackslashes_cons_of_not_mem hc]
        refine .plain ?_ ?_ ih
        · rintro rfl
          exact hc (by decide)
        · rintro rfl
          exact hc (by decide)

theorem unescape_withBackslashes (t : Text) : unescape (withBackslashes signs t) = t := by
  induction t with
  | nil => rfl
  | cons c t ih =>
      by_cases hc : c ∈ signs
      · rw [withBackslashes_cons_of_mem hc, unescape, if_pos (mem_signs_iff.mp hc), ih]
      · have hslash : c ≠ '\\' := by
          rintro rfl
          exact hc (by decide)
        rw [withBackslashes_cons_of_not_mem hc, unescape_cons hslash, ih]

/-- The text comes out as it is, and what stands behind it is read as if nothing stood before. -/
theorem render_withBackslashes_append (t s : Text) : render (withBackslashes signs t ++ s) = t ++ render s := by
  rw [(guarded_withBackslashes t).render_append, unescape_withBackslashes]

end CodeSpan

/-! ## The last pass -/

namespace Emphasis

/-- The same for the last pass, unless an asterisk stands behind: it would join a backslash at the end of the text. -/
theorem render_withBackslashes_append {s : Text} (hs : s.head? ≠ some '*') (t : Text) :
    render (withBackslashes ['*'] t ++ s) = t ++ render s := by
  induction t with
  | nil => rfl
  | cons c t ih =>
      by_cases hc : c ∈ ['*']
      · obtain rfl : c = '*' := List.mem_singleton.mp hc
        rw [withBackslashes_cons_of_mem hc, List.cons_append, List.cons_append, render_escaped, ih, List.cons_append]
      · have hstar : c ≠ '*' := fun heq => hc (List.mem_singleton.mpr heq)
        have hbehind : (withBackslashes ['*'] t ++ s).head? ≠ some '*' := by
          intro hhead
          rw [List.head?_append] at hhead
          cases hfirst : (withBackslashes ['*'] t).head? with
          | none =>
              rw [hfirst] at hhead
              exact hs hhead
          | some d =>
              rw [hfirst] at hhead
              have hd := head?_withBackslashes (by decide) t d hfirst
              exact hd (List.mem_singleton.mpr (Option.some.inj hhead))
        rw [withBackslashes_cons_of_not_mem hc, List.cons_append, render_cons hstar fun _ => hbehind, ih,
          List.cons_append]

end Emphasis

/-- Any text can be written with backslashes: before each backtick, dollar sign and backslash for the first pass, before
each asterisk for the last. -/
theorem Inline.passes_withBackslashes (t : Text) :
    CodeSpan.render (withBackslashes "\x60$\\" t) = t ∧ Emphasis.render (withBackslashes "*" t) = t := by
  have hcode := CodeSpan.render_withBackslashes_append t []
  have hemphasis := Emphasis.render_withBackslashes_append (s := []) nofun t
  rw [List.append_nil, CodeSpan.render_eq_self List.not_mem_nil List.not_mem_nil, List.append_nil] at hcode
  rw [List.append_nil, Emphasis.render_eq_self_of_not_mem List.not_mem_nil, List.append_nil] at hemphasis
  exact ⟨hcode, hemphasis⟩

end AtMark

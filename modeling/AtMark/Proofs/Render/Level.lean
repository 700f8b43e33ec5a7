import AtMark.Proofs.Text.Numeral
import AtMark.Render.Block

/-!
# `Proofs.Render.Level`: the level of a heading

Whatever is given as its level, a heading has one of the six that there are.  A numeral, in any of the ways to write
it, counts as its integer brought into that range, and everything else counts as one (`headingLevel_numerals`).

The ways to write a numeral are those of `Text.IsNumeral`, which is a grammar and knows nothing of the reader; that the
reader keeps to it is proved in `Proofs.Text.Numeral`.  A level in digits of another script, with a sign, with zeros
before it or with underscores in it is therefore the same level as in plain digits.

A numeral of more digits than are read is no numeral here, and its heading has the first level, not the last one.
-/

namespace AtMark.Render

open Text

theorem headingLevel_range (raw : Option Text) : 1 ≤ headingLevel raw ∧ headingLevel raw ≤ 6 := by
  unfold headingLevel
  split
  · omega
  · omega

theorem headingLevel_of_isNumeral {s : Text} {n : Int} (h : IsNumeral s n) :
    (headingLevel (some s) : Int) = max 1 (min 6 n) := by
  rw [headingLevel, Option.bind_some, integer?_eq_some_iff.mpr h]
  exact Int.toNat_of_nonneg (by omega)

theorem headingLevel_of_not_isNumeral {s : Text} (h : ∀ n, ¬IsNumeral s n) : headingLevel (some s) = 1 := by
  have hnone : integer? s = none := Option.eq_none_iff_forall_ne_some.mpr fun n hn => h n (integer?_eq_some_iff.mp hn)
  rw [headingLevel, Option.bind_some, hnone]

/-- The level of a heading is from one to six: it is the integer that its numeral writes, brought into that range, and
one where there is no numeral. -/
theorem headingLevel_numerals :
    (∀ raw : Option Text, 1 ≤ headingLevel raw ∧ headingLevel raw ≤ 6) ∧
    (∀ (s : Text) (n : Int), IsNumeral s n → (headingLevel (some s) : Int) = max 1 (min 6 n)) ∧
    (∀ s : Text, (∀ n, ¬IsNumeral s n) → headingLevel (some s) = 1) ∧ headingLevel none = 1 :=
  ⟨headingLevel_range, fun _ _ => headingLevel_of_isNumeral, fun _ => headingLevel_of_not_isNumeral, rfl⟩

/-- A negative numeral in the digits of two scripts, a positive one with zeros before it, and two underscores in a row. -/
theorem headingLevel_numerals_scripts :
    IsNumeral "\u00A0-\u06600_7\u2029" (-7) ∧ (headingLevel (some "\u00A0-\u06600_7\u2029".toList) : Int) = 1 ∧
      IsNumeral "+0_0\u096A" 4 ∧ (headingLevel (some "+0_0\u096A".toList) : Int) = 4 ∧
      (∀ n, ¬IsNumeral "1__2" n) ∧ headingLevel (some "1__2".toList) = 1 := by
  obtain ⟨-, hnumeral, hnone, -⟩ := headingLevel_numerals
  have hminus : IsNumeral "\u00A0-\u06600_7\u2029" (-7) := integer?_eq_some_iff.mp (by decide +kernel)
  have hplus : IsNumeral "+0_0\u096A" 4 := integer?_eq_some_iff.mp (by decide +kernel)
  have hnot : ∀ n, ¬IsNumeral "1__2" n := by
    intro n hn
    have hsome := integer?_eq_some_iff.mpr hn
    rw [show integer? "1__2" = none by decide +kernel] at hsome
    cases hsome
  exact ⟨hminus, hnumeral _ _ hminus, hplus, hnumeral _ _ hplus, hnot, hnone _ hnot⟩

end AtMark.Render

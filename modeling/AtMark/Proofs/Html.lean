import AtMark.Html
import Mathlib.Data.List.Count

/-!
# `Proofs.Html`: what escaping does to a text

Five characters are written as entities and all others stay (`escapeChar_cases`).  So of a character that is
neither one of the five nor occurs in an entity, escaping leaves every occurrence and adds none
(`count_escape`).

These are the facts that the inline passes are in need of: they look for brackets, asterisks and at signs in texts that
were escaped before, and must find what was written there.  How escaped text is read back is in `Proofs.Html.Entity`,
and what it means for tags in `Proofs.Html.Tag`.
-/

namespace AtMark.Html

variable {c d : Char} {s : Text}

/-- The characters that are written as entities. -/
def special : Text := "&<>\"'"

/-- The characters that entities are made of. -/
def entityChars : Text := "&amp;ltgquo#39"

theorem escapeChar_cases (c : Char) :
    c ∉ special ∧ escapeChar c = [c] ∨
      c ∈ special ∧ escapeChar c ≠ [] ∧ ∀ d ∈ escapeChar c, d ∈ entityChars := by
  unfold escapeChar
  split
  · exact .inr (by decide)
  · exact .inr (by decide)
  · exact .inr (by decide)
  · exact .inr (by decide)
  · exact .inr (by decide)
  · next hamp hlt hgt hquote happ =>
    refine .inl ⟨fun hc => ?_, rfl⟩
    have hall : ∀ d ∈ special, d = '&' ∨ d = '<' ∨ d = '>' ∨ d = '"' ∨ d = '\'' := by decide
    rcases hall c hc with h | h | h | h | h
    · exact hamp h
    · exact hlt h
    · exact hgt h
    · exact hquote h
    · exact happ h

theorem escapeChar_ne_nil (c : Char) : escapeChar c ≠ [] := by
  rcases escapeChar_cases c with ⟨-, hsame⟩ | ⟨-, hne, -⟩
  · rw [hsame]
    exact List.cons_ne_nil c []
  · exact hne

theorem escape_eq_self (h : ∀ c ∈ s, c ∉ special) : escape s = s := by
  induction s with
  | nil => rfl
  | cons c s ih =>
      obtain ⟨hc, hs⟩ := List.forall_mem_cons.mp h
      rw [escape, List.flatMap_cons, ((escapeChar_cases c).resolve_right fun hspecial => hc hspecial.1).2]
      exact congrArg (c :: ·) (ih hs)

theorem count_escape (hspecial : d ∉ special) (hentity : d ∉ entityChars) (s : Text) :
    (escape s).count d = s.count d := by
  induction s with
  | nil => rfl
  | cons c s ih =>
      rw [escape, List.flatMap_cons, List.count_append, List.count_cons, Nat.add_comm, ← ih]
      rcases escapeChar_cases c with ⟨-, hsame⟩ | ⟨hc, -, hchars⟩
      · rw [hsame, List.count_singleton]
        rfl
      · have hne : (c == d) = false := by
          rw [beq_eq_false_iff_ne]
          rintro rfl
          exact hspecial hc
        rw [List.count_eq_zero.mpr fun hd => hentity (hchars d hd), hne]
        rfl

theorem mem_escape_iff (hspecial : d ∉ special) (hentity : d ∉ entityChars) :
    d ∈ escape s ↔ d ∈ s := by
  rw [← List.count_pos_iff, count_escape hspecial hentity, List.count_pos_iff]

/-- Of the special characters only the ampersand stands in an escaped text. -/
theorem not_mem_escape (hspecial : d ∈ special) (hentity : d ∉ entityChars) : d ∉ escape s := by
  intro hd
  obtain ⟨c, -, hc⟩ := List.mem_flatMap.mp hd
  rcases escapeChar_cases c with ⟨hplain, hsame⟩ | ⟨-, -, hchars⟩
  · rw [hsame] at hc
    exact hplain (List.mem_singleton.mp hc ▸ hspecial)
  · exact hentity (hchars d hc)

theorem ne_of_mem_escape (hc : c ∈ escape s) (hspecial : d ∈ special) (hentity : d ∉ entityChars) : c ≠ d := by
  rintro rfl
  exact not_mem_escape hspecial hentity hc

end AtMark.Html

import AtMark.Proofs.Html
import AtMark.Proofs.Search

/-!
# `Proofs.Html.Entity`: entities written and read back

Replacing the entities of an escaped text by their characters gives the text back, as long as the ampersand
comes last (`unescape_escape`).  In between, some characters are read back and all others are written in full
(`readBack`); no entity is the beginning of another one, and none has a second ampersand, so replacing one of
them touches nothing else (`replaceAll_readBack`).

A text can be escaped by one replacement after the other, too, as long as the ampersand comes first
(`escape_eq_replaceAll`).  This is what the escaper does that writes the apostrophe in its hexadecimal spelling, up to
that spelling.  In the other order an ampersand that was just written would be escaped again.

The order does not matter for reading back in one respect only: which of the other four comes first.  The list of
entities fixes one, and the proofs do not depend on it.
-/

namespace AtMark.Html

open Search

/-- The entities that are written and their characters, in an order in which they can be replaced. -/
def entities : List (Text × Char) :=
  [("&#39;", '\''), ("&quot;", '"'), ("&gt;", '>'), ("&lt;", '<'), ("&amp;", '&')]

/-- The text with its entities replaced by their characters, one entity after the other. -/
def unescape (s : Text) : Text :=
  entities.foldl (fun s e => replaceAll e.1 [e.2] s) s

/-- The replacements that an escaper begins with, one after the other. -/
def substitutions : List (Char × Text) :=
  [('&', "&amp;"), ('<', "&lt;"), ('>', "&gt;"), ('"', "&quot;"), ('\'', "&#x27;")]

variable {c d : Char} {s front rest : Text}

theorem ampersand_mem_special : '&' ∈ special := by decide

theorem escapeChar_eq_self (hc : c ∉ special) : escapeChar c = [c] :=
  ((escapeChar_cases c).resolve_right fun h => hc h.1).2

/-- An entity has its ampersand at the start and no other one. -/
theorem exists_escapeChar_eq (hc : c ∈ special) : ∃ name, escapeChar c = '&' :: name ∧ '&' ∉ name := by
  have hall : ∀ c ∈ special, escapeChar c = '&' :: (escapeChar c).tail ∧ '&' ∉ (escapeChar c).tail := by
    decide
  exact ⟨_, hall c hc⟩

theorem mem_entities (hc : c ∈ special) : (escapeChar c, c) ∈ entities := by
  have hall : ∀ c ∈ special, (escapeChar c, c) ∈ entities := by decide
  exact hall c hc

theorem isPassed_escapeChar (hc : c ∈ special) (hd : d ∈ special) (hne : d ≠ c) :
    IsPassed (escapeChar c) (escapeChar d) := by
  have hall : ∀ c ∈ special, ∀ d ∈ special, d ≠ c → ¬escapeChar c <+: escapeChar d := by decide
  have hleft := hall c hc d hd hne
  have hright := hall d hd c hc hne.symm
  obtain ⟨name, hname, -⟩ := exists_escapeChar_eq hc
  obtain ⟨name', hname', hfree⟩ := exists_escapeChar_eq hd
  rw [hname, hname'] at hleft hright ⊢
  exact .of_incomparable hfree hleft hright

/-! ## Ampersands -/

/-- Every ampersand in an escaped text begins an entity. -/
theorem exists_entity_of_ampersand (h : escape s = front ++ '&' :: rest) :
    ∃ e ∈ entities, e.1 <+: '&' :: rest := by
  induction s generalizing front with
  | nil => exact absurd (List.append_eq_nil_iff.mp h.symm).2 (List.cons_ne_nil _ _)
  | cons c s ih =>
      rw [escape, List.flatMap_cons] at h
      rcases List.append_eq_append_iff.mp h with ⟨more, -, hrest⟩ | ⟨more, hchar, hrest⟩
      · exact ih hrest
      · cases more with
        | nil =>
            rw [List.nil_append] at hrest
            exact @ih [] hrest.symm
        | cons d more =>
            obtain ⟨rfl, rfl⟩ := List.cons.inj hrest
            have hc : c ∈ special := by
              by_contra hplain
              rw [escapeChar_eq_self hplain] at hchar
              have hmem : '&' ∈ [c] := hchar ▸ List.mem_append_right front List.mem_cons_self
              exact hplain (List.mem_singleton.mp hmem ▸ ampersand_mem_special)
            obtain ⟨name, hname, hfree⟩ := exists_escapeChar_eq hc
            cases front with
            | nil => exact ⟨_, mem_entities hc, hchar ▸ List.prefix_append ('&' :: more) _⟩
            | cons x front =>
                rw [hname, List.cons_append] at hchar
                have htail := (List.cons.inj hchar).2
                exact absurd (htail ▸ List.mem_append_right front List.mem_cons_self) hfree

/-! ## Reading back -/

/-- A character when some characters are read back already. -/
def readBack (done : Text) (c : Char) : Text :=
  if c ∈ done then [c] else escapeChar c

theorem replaceAll_readBack {done : Text} (hc : c ∈ special) (hdone : c ∉ done) (hamp : '&' ∉ done) (s : Text) :
    replaceAll (escapeChar c) [c] (s.flatMap (readBack done)) = s.flatMap (readBack (c :: done)) := by
  obtain ⟨name, hname, -⟩ := exists_escapeChar_eq hc
  have hplain : ∀ {d : Char}, d ≠ '&' → IsPassed (escapeChar c) [d] := by
    intro d hd
    rw [hname]
    exact .of_not_mem fun h => hd (List.mem_singleton.mp h).symm
  refine replaceAll_flatMap (escapeChar_ne_nil c) fun d _ => ?_
  by_cases hdc : d = c
  · subst hdc
    exact .inl ⟨if_neg hdone, if_pos List.mem_cons_self⟩
  · refine .inr ⟨?_, ?_⟩
    · by_cases hd : d ∈ done
      · rw [readBack, if_pos hd]
        exact hplain fun h => hamp (h ▸ hd)
      · rw [readBack, if_neg hd]
        by_cases hspecial : d ∈ special
        · exact isPassed_escapeChar hc hspecial hdc
        · rw [escapeChar_eq_self hspecial]
          exact hplain fun h => hspecial (h ▸ ampersand_mem_special)
    · simp only [readBack, List.mem_cons, hdc, false_or]

theorem unescape_escape (s : Text) : unescape (escape s) = s := by
  have hone : escape s = s.flatMap (readBack []) := rfl
  have hall : s.flatMap (readBack special) = s := by
    have hself : readBack special = fun c => [c] := by
      funext c
      by_cases hc : c ∈ special
      · exact if_pos hc
      · rw [readBack, if_neg hc, escapeChar_eq_self hc]
    rw [hself, List.flatMap_singleton']
  show replaceAll (escapeChar '&') ['&'] (replaceAll (escapeChar '<') ['<'] (replaceAll (escapeChar '>') ['>']
    (replaceAll (escapeChar '"') ['"'] (replaceAll (escapeChar '\'') ['\''] (escape s))))) = s
  rw [hone, replaceAll_readBack, replaceAll_readBack, replaceAll_readBack, replaceAll_readBack, replaceAll_readBack]
  · exact hall
  all_goals decide

theorem unescape_eq_self (h : '&' ∉ s) : unescape s = s := by
  have hstart : ∀ e ∈ entities, e.1 = '&' :: e.1.tail := by decide
  refine List.foldlRecOn entities _ (motive := (· = s)) rfl fun t ht e he => ?_
  rw [ht, hstart e he]
  exact replaceAll_of_none (List.cons_ne_nil _ _) (IsPassed.of_not_mem h).breakOn_eq_none

/-! ## Escaping by replacements -/

/-- The entity of a character that is written before the spellings are made one. -/
def hexChar (c : Char) : Text :=
  if c = '\'' then "&#x27;" else escapeChar c

/-- A character when some characters are replaced already. -/
def writtenOut (done : Text) (c : Char) : Text :=
  if c ∈ done then hexChar c else [c]

/-- Replacing a character leaves the entities alone that are there already, as long as none of them has it. -/
theorem replaceAll_writtenOut {done : Text} (hc : c ∉ done) (hdone : ∀ d ∈ done, c ∉ hexChar d) (s : Text) :
    replaceAll [c] (hexChar c) (s.flatMap (writtenOut done)) = s.flatMap (writtenOut (c :: done)) := by
  refine replaceAll_flatMap (List.cons_ne_nil c []) fun d _ => ?_
  by_cases hdc : d = c
  · subst hdc
    exact .inl ⟨if_neg hc, if_pos List.mem_cons_self⟩
  · refine .inr ⟨.of_not_mem ?_, ?_⟩
    · by_cases hd : d ∈ done
      · rw [writtenOut, if_pos hd]
        exact hdone d hd
      · rw [writtenOut, if_neg hd]
        exact fun h => hdc (List.mem_singleton.mp h).symm
    · simp only [writtenOut, List.mem_cons, hdc, false_or]

/-- The entities of one spelling are made the other one, and no others. -/
theorem replaceAll_hexChar {done : Text} (hall : ∀ d ∈ special, d ∈ done)
    (honly : ∀ d ∈ done, d ∈ special) (s : Text) :
    replaceAll "&#x27;" "&#39;" (s.flatMap (writtenOut done)) = escape s := by
  refine replaceAll_flatMap (by decide) fun d _ => ?_
  by_cases hd : d ∈ special
  · have hother : ∀ d ∈ special, d ≠ '\'' →
        ¬"&#x27;".toList <+: escapeChar d ∧ ¬escapeChar d <+: "&#x27;".toList := by decide
    rw [writtenOut, if_pos (hall d hd), hexChar]
    split
    · next heq => exact .inl ⟨rfl, heq ▸ rfl⟩
    · next hne =>
      obtain ⟨hleft, hright⟩ := hother d hd hne
      obtain ⟨name, hname, hfree⟩ := exists_escapeChar_eq hd
      rw [hname] at hleft hright ⊢
      exact .inr ⟨.of_incomparable hfree hleft hright, rfl⟩
  · rw [writtenOut, if_neg fun h => hd (honly d h), escapeChar_eq_self hd]
    exact .inr ⟨.of_not_mem fun h => hd (List.mem_singleton.mp h ▸ ampersand_mem_special), rfl⟩

theorem escape_eq_replaceAll (s : Text) :
    escape s = replaceAll "&#x27;" "&#39;" (substitutions.foldl (fun s e => replaceAll [e.1] e.2 s) s) := by
  have hnone : s = s.flatMap (writtenOut []) := (List.flatMap_singleton' s).symm
  show _ = replaceAll _ _ (replaceAll ['\''] (hexChar '\'') (replaceAll ['"'] (hexChar '"')
    (replaceAll ['>'] (hexChar '>') (replaceAll ['<'] (hexChar '<') (replaceAll ['&'] (hexChar '&') s)))))
  conv_rhs => rw [hnone]
  rw [replaceAll_writtenOut, replaceAll_writtenOut, replaceAll_writtenOut, replaceAll_writtenOut,
    replaceAll_writtenOut, replaceAll_hexChar]
  all_goals decide

end AtMark.Html

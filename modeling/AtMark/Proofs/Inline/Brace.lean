import AtMark.Proofs.Inline.StyleSpan
import AtMark.Proofs.Position.Access
import Mathlib.Order.Bounds.Basic

/-!
# `Proofs.Inline.Brace`: the brace that closes another one

## What is proved

The search for a closing brace finds the first position up to which as many braces are closed as are opened, outside
quotations, and finds none exactly if there is no such position (`closingBrace?_exact`).  Until it stops, the number
of open braces is never below zero (`Visits.depth_nonneg`).

## How

`Unquoted s t` says which characters of a text stand outside quotations, by the quotations that the text is made of:
each opens with a quote and goes on to the next such quote that no backslash stands before.  A search does not look for
quotations, it only keeps in mind whether it is in one; what it takes for open text is the same (`unquoted_iff`).

The search goes from character to character with a counter.  `Visits` are the places that it comes to.  At each of them
the counter says how many more braces were opened than closed so far, and behind the first brace it is positive until
the search stops (`Visits.counted`).

## What is not

Whether the braces are in code, or in tags.  The search does not ask for either.
-/

namespace AtMark.Quotation

open Position (slice slice_self slice_succ)
open Text (isQuote)

variable {here : Quotation} {s t inner tail text : Text} {c q : Char} {start p : Nat}

/-! ## Text outside quotations -/

/-- What may stand in a quotation: its quote does not, unless a backslash stands before it. -/
inductive IsInner (q : Char) : Text → Prop
  | nil : IsInner q []
  | escaped {c : Char} {s : Text} : IsInner q s → IsInner q ('\\' :: c :: s)
  | plain {c : Char} {s : Text} : c ≠ q → c ≠ '\\' → IsInner q s → IsInner q (c :: s)

/-- The second text is what of the first stands outside quotations.  A quotation that is not closed goes to the end,
where a backslash may have nothing to stand before. -/
inductive Unquoted : Text → Text → Prop
  | nil : Unquoted [] []
  | plain {c : Char} {s t : Text} : isQuote c = false → Unquoted s t → Unquoted (c :: s) (c :: t)
  | quotation {q : Char} {inner s t : Text} : isQuote q = true → IsInner q inner → Unquoted s t →
      Unquoted (q :: (inner ++ q :: s)) t
  | unclosed {q : Char} {inner tail : Text} : isQuote q = true → IsInner q inner → tail = [] ∨ tail = ['\\'] →
      Unquoted (q :: (inner ++ tail)) []

/-- The characters at which a search may stop that stands as given with regard to quotations. -/
def openPart (here : Quotation) : Text → Text
  | [] => []
  | c :: s => if here.isOpen c then c :: openPart (here.next c) s else openPart (here.next c) s

theorem openPart_append (here : Quotation) (s t : Text) :
    openPart here (s ++ t) = openPart here s ++ openPart (s.foldl next here) t := by
  induction s generalizing here with
  | nil => rfl
  | cons c s ih =>
      rw [List.cons_append, openPart, openPart, ih]
      split
      · rfl
      · rfl

theorem openPart_inner (h : IsInner q inner) (s : Text) :
    openPart (inside q) (inner ++ s) = openPart (inside q) s := by
  induction h with
  | nil => rfl
  | @escaped c inner _ ih =>
      have hnext : ((inside q).next '\\').next c = inside q := by
        rw [next, if_pos rfl, next]
      show openPart (((inside q).next '\\').next c) (inner ++ s) = _
      rw [hnext]
      exact ih
  | @plain c inner hne hslash _ ih =>
      have hnext : (inside q).next c = inside q := by
        rw [next, if_neg hslash, if_neg hne]
      show openPart ((inside q).next c) (inner ++ s) = _
      rw [hnext]
      exact ih

theorem openPart_quote (hq : isQuote q = true) (s : Text) : openPart outside (q :: s) = openPart (inside q) s := by
  rw [openPart, isOpen, next, hq]
  rfl

theorem openPart_plain (hc : isQuote c = false) (s : Text) : openPart outside (c :: s) = c :: openPart outside s := by
  rw [openPart, isOpen, next, hc]
  rfl

theorem openPart_quotation (hq : isQuote q = true) (h : IsInner q inner) (s : Text) :
    openPart outside (q :: (inner ++ q :: s)) = openPart outside s := by
  have hnext : (inside q).next q = outside := by
    rw [next, if_neg (ne_backslash_of_isQuote hq), if_pos rfl]
  rw [openPart_quote hq, openPart_inner h]
  show openPart ((inside q).next q) s = _
  rw [hnext]

theorem openPart_unclosed (hq : isQuote q = true) (h : IsInner q inner) (htail : tail = [] ∨ tail = ['\\']) :
    openPart outside (q :: (inner ++ tail)) = [] := by
  rw [openPart_quote hq, openPart_inner h]
  rcases htail with rfl | rfl
  · rfl
  · rfl

/-- Behind a quote there is the rest of its quotation, closed or not. -/
theorem exists_inner (q : Char) (s : Text) :
    (∃ inner rest, s = inner ++ q :: rest ∧ IsInner q inner) ∨
      ∃ inner tail, s = inner ++ tail ∧ IsInner q inner ∧ (tail = [] ∨ tail = ['\\']) := by
  -- A backslash takes the next character with it, so the induction is on the length.
  induction hn : s.length using Nat.strong_induction_on generalizing s with
  | _ n ih =>
      cases s with
      | nil => exact .inr ⟨[], [], rfl, .nil, .inl rfl⟩
      | cons c s =>
          by_cases hq : c = q
          · subst hq
            exact .inl ⟨[], s, rfl, .nil⟩
          · by_cases hslash : c = '\\'
            · subst hslash
              cases s with
              | nil => exact .inr ⟨[], ['\\'], rfl, .nil, .inr rfl⟩
              | cons d s =>
                  have hlt : s.length < n := by
                    rw [← hn, List.length_cons, List.length_cons]
                    omega
                  rcases ih s.length hlt s rfl with ⟨inner, rest, rfl, h⟩ | ⟨inner, tail, rfl, h, htail⟩
                  · exact .inl ⟨'\\' :: d :: inner, rest, rfl, h.escaped⟩
                  · exact .inr ⟨'\\' :: d :: inner, tail, rfl, h.escaped, htail⟩
            · have hlt : s.length < n := by
                rw [← hn, List.length_cons]
                omega
              rcases ih s.length hlt s rfl with ⟨inner, rest, rfl, h⟩ | ⟨inner, tail, rfl, h, htail⟩
              · exact .inl ⟨c :: inner, rest, rfl, .plain hq hslash h⟩
              · exact .inr ⟨c :: inner, tail, rfl, .plain hq hslash h, htail⟩

theorem unquoted_openPart (s : Text) : Unquoted s (openPart outside s) := by
  induction hn : s.length using Nat.strong_induction_on generalizing s with
  | _ n ih =>
      cases s with
      | nil => exact .nil
      | cons c s =>
          cases hc : isQuote c with
          | false =>
              rw [openPart_plain hc]
              exact .plain hc (ih s.length (by rw [← hn, List.length_cons]; omega) s rfl)
          | true =>
              rcases exists_inner c s with ⟨inner, rest, rfl, h⟩ | ⟨inner, tail, rfl, h, htail⟩
              · rw [openPart_quotation hc h]
                refine .quotation hc h (ih rest.length ?_ rest rfl)
                rw [← hn, List.length_cons, List.length_append, List.length_cons]
                omega
              · rw [openPart_unclosed hc h htail]
                exact .unclosed hc h htail

/-- What stands outside quotations is what a search takes for open text. -/
theorem unquoted_iff : Unquoted s t ↔ t = openPart outside s := by
  constructor
  · intro h
    induction h with
    | nil => rfl
    | plain hc _ ih => rw [openPart_plain hc, ih]
    | quotation hq hinner _ ih => rw [openPart_quotation hq hinner, ih]
    | unclosed hq hinner htail => rw [openPart_unclosed hq hinner htail]
  · rintro rfl
    exact unquoted_openPart s

/-! ## Counting braces -/

/-- How many more braces are opened than closed. -/
def balance (s : Text) : Int :=
  s.count '{' - s.count '}'

theorem balance_append (s t : Text) : balance (s ++ t) = balance s + balance t := by
  simp only [balance, List.count_append]
  omega

theorem balance_eq_zero_iff : balance s = 0 ↔ s.count '{' = s.count '}' := by
  unfold balance
  omega

/-- The counter of the search counts the braces of open text. -/
theorem depthAfter_eq (here : Quotation) (depth : Int) (c : Char) :
    here.depthAfter depth c = depth + balance (openPart here [c]) := by
  unfold depthAfter openPart
  split
  · by_cases hopen : c = '{'
    · subst hopen
      rfl
    · by_cases hclose : c = '}'
      · subst hclose
        rfl
      · have hnone : balance [c] = 0 := by
          rw [balance_eq_zero_iff, List.count_singleton, List.count_singleton, beq_false_of_ne hopen,
            beq_false_of_ne hclose]
        rw [if_neg hopen, if_neg hclose]
        show depth = depth + balance [c]
        rw [hnone, Int.add_zero]
  · exact (Int.add_zero depth).symm

/-- The position is in the text, and up to it as many braces are opened as closed. -/
def IsBalanced (text : Text) (start p : Nat) : Prop :=
  start ≤ p ∧ p < text.length ∧ ∃ t, Unquoted (slice text start (p + 1)) t ∧ t.count '{' = t.count '}'

theorem isBalanced_iff : IsBalanced text start p ↔
    start ≤ p ∧ p < text.length ∧ balance (openPart outside (slice text start (p + 1))) = 0 := by
  refine and_congr_right' (and_congr_right' ?_)
  rw [balance_eq_zero_iff]
  constructor
  · rintro ⟨t, ht, hcount⟩
    rw [unquoted_iff.mp ht] at hcount
    exact hcount
  · exact fun hcount => ⟨_, unquoted_openPart _, hcount⟩

/-! ## The search -/

/-- Where the search for a closing brace stands: the position, how it stands with regard to quotations, and the
counter. -/
structure BraceSearch where
  position : Nat
  here : Quotation
  depth : Int
deriving DecidableEq, Repr

namespace BraceSearch

/-- Where the search stands behind a character. -/
def next (s : BraceSearch) (c : Char) : BraceSearch :=
  ⟨s.position + 1, s.here.next c, s.here.depthAfter s.depth c⟩

/-- The search stops at a brace that brings the counter down to nought. -/
def Stops (s : BraceSearch) (c : Char) : Prop :=
  s.here.isOpen c = true ∧ c = '}' ∧ (s.next c).depth = 0

instance (s : BraceSearch) (c : Char) : Decidable (s.Stops c) :=
  inferInstanceAs (Decidable (_ ∧ _))

/-- How the search ends at a place, if it does: with nothing found behind the text, or at a character to stop at. -/
def outcome? (text : Text) (s : BraceSearch) : Option (Option Nat) :=
  match text[s.position]? with
  | none => some none
  | some c => if s.Stops c then some (some s.position) else none

/-- The search from a position on comes to these places. -/
inductive Visits (text : Text) (start : Nat) : BraceSearch → Prop
  | start : Visits text start ⟨start, outside, 0⟩
  | next {s : BraceSearch} {c : Char} : Visits text start s → text[s.position]? = some c → s.outcome? text = none →
      Visits text start (s.next c)

end BraceSearch

/-- The position of the brace that closes the one at a position. -/
def closingBrace? (text : Text) (start : Nat) : Option Nat :=
  (breakAtClosingBrace (text.drop start)).map fun (before, _) => start + before.length

namespace BraceSearch

variable {s : BraceSearch}

theorem outcome?_of_getElem? (hget : text[s.position]? = some c) :
    s.outcome? text = if s.Stops c then some (some s.position) else none := by
  rw [outcome?, hget]

theorem breakAtBrace_cons (s : BraceSearch) (c : Char) (cs : Text) : breakAtBrace s.depth s.here (c :: cs) =
    if s.Stops c then some ([], c :: cs)
    else (breakAtBrace (s.next c).depth (s.next c).here cs).map fun (before, rest) => (c :: before, rest) := by
  have hstop : (s.here.isOpen c && c == '}' && s.depth == 1) = true ↔ s.Stops c := by
    rw [Bool.and_eq_true, Bool.and_eq_true, beq_iff_eq, beq_iff_eq, and_assoc]
    refine and_congr_right fun hopen => and_congr_right fun hclose => ?_
    have hdepth : (s.next c).depth = s.depth - 1 := by
      subst hclose
      exact if_pos hopen
    omega
  rw [breakAtBrace]
  exact if_congr hstop rfl rfl

/-- From each of its places the search comes to its end, with what it finds from there. -/
theorem Visits.exists_last (h : Visits text start s) :
    ∃ last, Visits text start last ∧
      last.outcome? text = some ((breakAtBrace s.depth s.here (text.drop s.position)).map fun (before, _) =>
        s.position + before.length) := by
  induction hrest : text.drop s.position generalizing s with
  | nil =>
      have hend : text[s.position]? = none := List.getElem?_eq_none (List.drop_eq_nil_iff.mp hrest)
      refine ⟨s, h, ?_⟩
      rw [outcome?, hend]
      rfl
  | cons c cs ih =>
      have hget : text[s.position]? = some c := by
        rw [← Nat.add_zero s.position, ← List.getElem?_drop, hrest]
        rfl
      have hdrop : text.drop (s.next c).position = cs := by
        show text.drop (s.position + 1) = cs
        rw [← List.drop_drop, hrest]
        rfl
      have hout := outcome?_of_getElem? hget
      rw [breakAtBrace_cons]
      by_cases hstops : s.Stops c
      · rw [if_pos hstops] at hout ⊢
        exact ⟨s, h, hout⟩
      · rw [if_neg hstops] at hout ⊢
        obtain ⟨last, hlast, hfound⟩ := ih (h.next hget hout) hdrop
        refine ⟨last, hlast, hfound.trans ?_⟩
        rw [Option.map_map]
        refine congrArg some (congrArg (Option.map · _) (funext fun found => ?_))
        show s.position + 1 + found.1.length = s.position + (c :: found.1).length
        rw [List.length_cons]
        omega

/-- On its way the search comes to every position. -/
theorem Visits.exists_at (h : Visits text start s) (hstart : start ≤ p) (hp : p ≤ s.position) :
    ∃ s', Visits text start s' ∧ s'.position = p := by
  induction h with
  | start => exact ⟨_, .start, Nat.le_antisymm hstart hp⟩
  | @next s c h hget hgoes ih =>
      by_cases hlast : p ≤ s.position
      · exact ih hlast
      · exact ⟨_, h.next hget hgoes, Nat.le_antisymm (Nat.lt_of_not_le hlast) hp⟩

/-! ### The counter -/

/-- What the search keeps in mind at a place is what stands before it: the quotation that is open there, and how many
more braces were opened than closed.  There is such a brace at every place but the first. -/
structure Counted (text : Text) (start : Nat) (s : BraceSearch) : Prop where
  start_le : start ≤ s.position
  here_eq : s.here = (slice text start s.position).foldl Quotation.next outside
  depth_eq : s.depth = balance (openPart outside (slice text start s.position))
  depth_pos : s.position = start ∨ 0 < s.depth

theorem counted_start (text : Text) (start : Nat) : Counted text start ⟨start, outside, 0⟩ := by
  refine ⟨Nat.le_refl start, ?_, ?_, .inl rfl⟩
  · rw [slice_self]
    rfl
  · rw [slice_self]
    rfl

/-- The counter falls by one at most, and from one to nought only where the search stops. -/
theorem depth_next_pos (hdepth : 0 < s.depth) (hgoes : ¬s.Stops c) : 0 < (s.next c).depth := by
  unfold Stops next depthAfter at hgoes
  unfold next depthAfter
  dsimp only at hgoes ⊢
  by_cases hopen : s.here.isOpen c = true
  · rw [if_pos hopen] at hgoes ⊢
    split_ifs at hgoes ⊢ with hopening hclosing
    · omega
    · have hzero : ¬s.depth - 1 = 0 := fun hzero => hgoes ⟨hopen, hclosing, hzero⟩
      omega
    · exact hdepth
  · rwa [if_neg hopen]

theorem Counted.depth_next (h : Counted text start s) (hget : text[s.position]? = some c) :
    (s.next c).depth = balance (openPart outside (slice text start (s.position + 1))) := by
  rw [slice_succ h.start_le hget, openPart_append, balance_append, ← h.here_eq, ← h.depth_eq]
  exact depthAfter_eq s.here s.depth c

theorem Counted.next (h : Counted text start s) (hbrace : text[start]? = some '{')
    (hget : text[s.position]? = some c) (hgoes : ¬s.Stops c) : Counted text start (s.next c) := by
  refine ⟨Nat.le_succ_of_le h.start_le, ?_, h.depth_next hget, .inr ?_⟩
  · show _ = (slice text start (s.position + 1)).foldl Quotation.next outside
    rw [slice_succ h.start_le hget, List.foldl_append, ← h.here_eq]
    rfl
  · rcases h.depth_pos with hfirst | hdepth
    · -- The first character is the brace, and it is counted.
      have hhere := h.here_eq
      have hdepth := h.depth_eq
      rw [hfirst, slice_self] at hhere hdepth
      rw [hfirst, hbrace] at hget
      obtain rfl := Option.some.inj hget
      show 0 < s.here.depthAfter s.depth '{'
      rw [hhere, hdepth]
      decide
    · exact depth_next_pos hdepth hgoes

theorem Visits.counted (h : Visits text start s) (hbrace : text[start]? = some '{') : Counted text start s := by
  induction h with
  | start => exact counted_start text start
  | @next s c _ hget hgoes ih =>
      refine ih.next hbrace hget fun hstops => ?_
      rw [outcome?_of_getElem? hget, if_pos hstops] at hgoes
      cases hgoes

theorem Visits.depth_nonneg (h : Visits text start s) (hbrace : text[start]? = some '{') : 0 ≤ s.depth := by
  have hcounted := h.counted hbrace
  rcases hcounted.depth_pos with hfirst | hdepth
  · rw [hcounted.depth_eq, hfirst, slice_self]
    exact Int.le_refl 0
  · exact Int.le_of_lt hdepth

/-- Before the place where the search is, no position is balanced. -/
theorem Visits.not_isBalanced (h : Visits text start s) (hbrace : text[start]? = some '{') (hp : p < s.position) :
    ¬IsBalanced text start p := by
  intro hbalanced
  obtain ⟨hstart, -, hzero⟩ := isBalanced_iff.mp hbalanced
  obtain ⟨s', hs', hposition⟩ := h.exists_at (Nat.le_succ_of_le hstart) hp
  have hcounted := hs'.counted hbrace
  rcases hcounted.depth_pos with hfirst | hdepth
  · omega
  · rw [hcounted.depth_eq, hposition, hzero] at hdepth
    exact Int.lt_irrefl 0 hdepth

/-! ### How the search ends -/

theorem of_outcome?_eq_some {out : Option Nat} (h : s.outcome? text = some out) :
    (text.length ≤ s.position ∧ out = none) ∨
      ∃ c, text[s.position]? = some c ∧ (s.next c).depth = 0 ∧ out = some s.position := by
  unfold outcome? at h
  split at h
  · next hend => exact .inl ⟨List.getElem?_eq_none_iff.mp hend, (Option.some.inj h).symm⟩
  · next c hget =>
    split at h
    · next hends => exact .inr ⟨c, hget, hends.2.2, (Option.some.inj h).symm⟩
    · cases h

theorem Visits.depth_next_nonneg (h : Visits text start s) (hbrace : text[start]? = some '{')
    (hget : text[s.position]? = some c) : 0 ≤ (s.next c).depth := by
  cases hout : s.outcome? text with
  | none => exact (h.next hget hout).depth_nonneg hbrace
  | some out =>
      rcases of_outcome?_eq_some hout with ⟨hend, -⟩ | ⟨c', hget', hzero, -⟩
      · rw [List.getElem?_eq_none hend] at hget
        cases hget
      · obtain rfl := Option.some.inj (hget.symm.trans hget')
        exact hzero.ge

end BraceSearch

open BraceSearch (Visits of_outcome?_eq_some)

/-- The search from a position on ends with what it finds. -/
theorem exists_outcome_closingBrace? (text : Text) (start : Nat) :
    ∃ last, Visits text start last ∧ last.outcome? text = some (closingBrace? text start) :=
  Visits.start.exists_last

theorem isLeast_of_closingBrace? (hbrace : text[start]? = some '{') (h : closingBrace? text start = some p) :
    IsLeast {p | IsBalanced text start p} p := by
  obtain ⟨last, hlast, hout⟩ := exists_outcome_closingBrace? text start
  rw [h] at hout
  rcases of_outcome?_eq_some hout with ⟨-, hnone⟩ | ⟨c, hget, hzero, hposition⟩
  · cases hnone
  · obtain rfl := Option.some.inj hposition
    have hcounted := hlast.counted hbrace
    obtain ⟨hlt, -⟩ := List.getElem?_eq_some_iff.mp hget
    rw [hcounted.depth_next hget] at hzero
    refine ⟨isBalanced_iff.mpr ⟨hcounted.start_le, hlt, hzero⟩, fun p hp => ?_⟩
    exact Nat.le_of_not_lt fun hbefore => hlast.not_isBalanced hbrace hbefore hp

theorem not_isBalanced_of_closingBrace? (hbrace : text[start]? = some '{') (h : closingBrace? text start = none)
    (p : Nat) : ¬IsBalanced text start p := by
  intro hp
  obtain ⟨last, hlast, hout⟩ := exists_outcome_closingBrace? text start
  rw [h] at hout
  rcases of_outcome?_eq_some hout with ⟨hend, -⟩ | ⟨c, -, -, hposition⟩
  · exact hlast.not_isBalanced hbrace (Nat.lt_of_lt_of_le hp.2.1 hend) hp
  · cases hposition

/-- The brace that the search stops at is the first one that closes as many braces as are opened; it stops at none only
if there is no such position.  On its way from the opening brace the counter never falls below nought. -/
theorem closingBrace?_exact (hbrace : text[start]? = some '{') :
    (∀ p, closingBrace? text start = some p ↔ IsLeast {p | IsBalanced text start p} p) ∧
    (closingBrace? text start = none ↔ ∀ p, ¬IsBalanced text start p) ∧
    (∃ last, Visits text start last ∧ last.outcome? text = some (closingBrace? text start)) ∧
    ∀ s, Visits text start s → 0 ≤ s.depth ∧ ∀ c, text[s.position]? = some c → 0 ≤ (s.next c).depth := by
  refine ⟨fun p => ⟨isLeast_of_closingBrace? hbrace, fun hp => ?_⟩,
    ⟨not_isBalanced_of_closingBrace? hbrace, fun hp => ?_⟩, exists_outcome_closingBrace? text start, fun s hs => ?_⟩
  · cases hfound : closingBrace? text start with
    | none => exact absurd hp.1 (not_isBalanced_of_closingBrace? hbrace hfound p)
    | some found => rw [(isLeast_of_closingBrace? hbrace hfound).unique hp]
  · refine Option.eq_none_iff_forall_ne_some.mpr fun p hfound => ?_
    exact hp p (isLeast_of_closingBrace? hbrace hfound).1
  · exact ⟨hs.depth_nonneg hbrace, fun c hget => hs.depth_next_nonneg hbrace hget⟩

/-- Braces in quotations of both kinds, one of them behind a quote that a backslash keeps from closing. -/
theorem closingBrace?_exact_quotations :
    let text : Text := "a\x7bb\x7b\"\x7d\\\"\x7d\"\x7dc'\x7d'\x7dd\x7d"
    text[1]? = some '{' ∧ closingBrace? text 1 = some 15 ∧ IsLeast {p | IsBalanced text 1 p} 15 := by
  intro text
  have hbrace : text[1]? = some '{' := by decide
  have hfound : closingBrace? text 1 = some 15 := by decide
  obtain ⟨hexact, -⟩ := closingBrace?_exact hbrace
  exact ⟨hbrace, hfound, (hexact 15).mp hfound⟩

end AtMark.Quotation

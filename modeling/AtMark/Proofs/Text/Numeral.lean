import AtMark.Proofs.Text.Run
import AtMark.Text.Numeral
import Mathlib.Data.List.Pairwise
import Mathlib.Data.Nat.Digits.Defs

/-!
# `Proofs.Text.Numeral`: the grammar of numerals

`IsNumeral s n` says that a text is a way to write an integer: blanks around it, a sign or none, and decimal digits of
any script, no more than `maxDigits`, with at most one underscore between two of them.  The digits count from the first
as the most significant one, and zeros may stand before it.

The reader of numerals accepts these texts and no others, and gives the integer that is written
(`integer?_eq_some_iff`).  This is an equivalence with a grammar that was written down without the reader in mind, so both what is accepted and
what is refused can be read off the grammar.

Digits are read one by one, and no character is a digit of two scripts (`pairwise_zeros`), so the digits of a run are
known from its characters; the blanks and the sign are known from the first character that is no blank.  The scripts
are those of one version of Unicode.  The proofs ask of their table only that its entries are ten apart or more and
that no blank is among the digits, which is computed once and would be for another table.
-/

namespace AtMark.Text

variable {s core before after : Text} {c : Char} {d : Nat} {ds : List Nat} {n : Int}

/-! ## The grammar -/

/-- The character is the digit of a value in some script. -/
def IsDigit (c : Char) (d : Nat) : Prop :=
  d < 10 ∧ ∃ first ∈ zeros, c.toNat = first + d

/-- The text is a run of digits, with at most one underscore between two of them. -/
inductive IsRun : Text → List Nat → Prop
  | last {c : Char} {d : Nat} : IsDigit c d → IsRun [c] [d]
  | next {c : Char} {d : Nat} {s : Text} {ds : List Nat} : IsDigit c d → IsRun s ds → IsRun (c :: s) (d :: ds)
  | apart {c : Char} {d : Nat} {s : Text} {ds : List Nat} :
      IsDigit c d → IsRun s ds → IsRun (c :: '_' :: s) (d :: ds)

/-- The text is an unsigned numeral of a natural number. -/
def IsUnsigned (s : Text) (n : Nat) : Prop :=
  ∃ ds, IsRun s ds ∧ ds.length ≤ 4300 ∧ n = Nat.ofDigits 10 ds.reverse

/-- The text is a numeral without blanks around it. -/
inductive IsSigned : Text → Int → Prop
  | bare {s : Text} {n : Nat} : IsUnsigned s n → IsSigned s n
  | plus {s : Text} {n : Nat} : IsUnsigned s n → IsSigned ('+' :: s) n
  | minus {s : Text} {n : Nat} : IsUnsigned s n → IsSigned ('-' :: s) (-n)

/-- The text is a way to write the integer. -/
def IsNumeral (s : Text) (n : Int) : Prop :=
  ∃ before core after, s = before ++ core ++ after ∧ IsSigned core n ∧ (∀ c ∈ before, isBlank c) ∧
    ∀ c ∈ after, isBlank c

/-! ## Digits -/

/-- The digits of a script are over before those of the next one begin. -/
theorem pairwise_zeros : zeros.Pairwise fun first next => first + 10 ≤ next := by
  have hchain : zeros.IsChain fun first next => first + 10 ≤ next := by decide +kernel
  have : Trans (fun first next : Nat => first + 10 ≤ next) (fun first next => first + 10 ≤ next)
      (fun first next => first + 10 ≤ next) := ⟨fun h h' => by omega⟩
  exact hchain.pairwise

theorem digit?_eq_some_iff : digit? c = some d ↔ IsDigit c d := by
  unfold digit?
  constructor
  · intro h
    obtain ⟨first, hfind, rfl⟩ := Option.map_eq_some_iff.mp h
    have hrange := List.find?_some hfind
    rw [Bool.and_eq_true, decide_eq_true_eq, decide_eq_true_eq] at hrange
    exact ⟨by omega, first, List.mem_of_find?_eq_some hfind, by omega⟩
  · rintro ⟨hd, first, hmem, hc⟩
    cases hfind : zeros.find? fun first => first ≤ c.toNat && c.toNat < first + 10 with
    | none =>
        have hnot := List.find?_eq_none.mp hfind first hmem
        rw [Bool.and_eq_true, decide_eq_true_eq, decide_eq_true_eq] at hnot
        exact absurd ⟨by omega, by omega⟩ hnot
    | some found =>
        have hrange := List.find?_some hfind
        rw [Bool.and_eq_true, decide_eq_true_eq, decide_eq_true_eq] at hrange
        have hsame : found = first := by
          by_contra hne
          have hsymm : Std.Symm fun first next : Nat => first + 10 ≤ next ∨ next + 10 ≤ first := ⟨fun _ _ => Or.symm⟩
          have hapart := (pairwise_zeros.imp (S := fun a b => a + 10 ≤ b ∨ b + 10 ≤ a) .inl).forall
            (List.mem_of_find?_eq_some hfind) hmem hne
          omega
        rw [Option.map_some, hsame, hc, Nat.add_sub_cancel_left]

theorem not_isDigit (h : digit? c = none) : ¬IsDigit c d := by
  rw [← digit?_eq_some_iff, h]
  exact nofun

theorem IsDigit.isBlank_eq_false (h : IsDigit c d) : isBlank c = false := by
  obtain ⟨hd, first, hfirst, hc⟩ := h
  have hapart : ∀ first ∈ zeros, ∀ range ∈ blankRanges, range.2 < first ∨ first + 9 < range.1 := by decide +kernel
  refine List.any_eq_false.mpr fun range hrange => ?_
  have hout := hapart first hfirst range hrange
  rw [Bool.and_eq_true, decide_eq_true_eq, decide_eq_true_eq]
  omega

/-! ## Runs -/

theorem IsRun.ne_nil (h : IsRun s ds) : s ≠ [] := by
  cases h <;> exact List.cons_ne_nil _ _

theorem IsRun.exists_head (h : IsRun (c :: s) ds) : ∃ d, IsDigit c d := by
  cases h with
  | last hc => exact ⟨_, hc⟩
  | next hc _ => exact ⟨_, hc⟩
  | apart hc _ => exact ⟨_, hc⟩

theorem IsRun.exists_last (h : IsRun s ds) : ∀ c ∈ s.getLast?, ∃ d, IsDigit c d := by
  induction h with
  | last hc =>
      intro c h
      cases h
      exact ⟨_, hc⟩
  | next _ hrun ih =>
      intro c h
      rw [← List.singleton_append, List.getLast?_append_of_ne_nil _ hrun.ne_nil] at h
      exact ih c h
  | @apart c _ s _ _ hrun ih =>
      intro c' h
      rw [show c :: '_' :: s = [c, '_'] ++ s from rfl, List.getLast?_append_of_ne_nil _ hrun.ne_nil] at h
      exact ih c' h

theorem digits?_eq_some_iff : digits? s = some ds ↔ IsRun s ds := by
  fun_induction digits? s generalizing ds with
  | case1 => exact iff_of_false nofun fun h => h.ne_nil rfl
  | case2 c =>
      rw [Option.map_eq_some_iff]
      constructor
      · rintro ⟨d, hd, rfl⟩
        exact .last (digit?_eq_some_iff.mp hd)
      · intro h
        cases h with
        | last hc => exact ⟨_, digit?_eq_some_iff.mpr hc, rfl⟩
        | next _ hrun => exact absurd rfl hrun.ne_nil
  | case3 c cs ih =>
      simp only [Option.bind_eq_bind, Option.bind_eq_some_iff, Option.pure_def, Option.some.injEq]
      constructor
      · rintro ⟨d, hd, ds, hds, rfl⟩
        exact .apart (digit?_eq_some_iff.mp hd) (ih.mp hds)
      · intro h
        cases h with
        | next _ hrun => exact absurd hrun.exists_head.choose_spec (not_isDigit (by decide +kernel))
        | apart hc hrun => exact ⟨_, digit?_eq_some_iff.mpr hc, _, ih.mpr hrun, rfl⟩
  | case4 c cs hne hmark ih =>
      simp only [Option.bind_eq_bind, Option.bind_eq_some_iff, Option.pure_def, Option.some.injEq]
      constructor
      · rintro ⟨d, hd, ds, hds, rfl⟩
        exact .next (digit?_eq_some_iff.mp hd) (ih.mp hds)
      · intro h
        cases h with
        | last _ => exact absurd rfl hne
        | next hc hrun => exact ⟨_, digit?_eq_some_iff.mpr hc, _, ih.mpr hrun, rfl⟩
        | apart _ _ => exact absurd rfl (hmark _)

/-- The first digit counts most. -/
theorem ofDigits_eq (ds : List Nat) : ofDigits ds = Nat.ofDigits 10 ds.reverse := by
  rw [Nat.ofDigits_eq_foldr, List.foldr_reverse]
  exact congrArg (fun f => ds.foldl f 0) (funext fun n => funext fun d => Nat.add_comm _ _)

theorem natural?_eq_some_iff {n : Nat} : natural? s = some n ↔ IsUnsigned s n := by
  simp only [natural?, Option.bind_eq_bind, Option.bind_eq_some_iff, digits?_eq_some_iff, ofDigits_eq]
  constructor
  · rintro ⟨ds, hrun, h⟩
    split at h
    · next hlength => exact ⟨ds, hrun, hlength, (Option.some.inj h).symm⟩
    · cases h
  · rintro ⟨ds, hrun, hlength, rfl⟩
    exact ⟨ds, hrun, if_pos hlength⟩

/-! ## Signs and blanks -/

/-- An unsigned numeral has no sign of its own. -/
theorem IsUnsigned.exists_head {n : Nat} (h : IsUnsigned (c :: s) n) : ∃ d, IsDigit c d := by
  obtain ⟨ds, hrun, -, -⟩ := h
  exact hrun.exists_head

theorem IsUnsigned.isBlank_last {n : Nat} (h : IsUnsigned s n) : ∀ c ∈ s.getLast?, isBlank c = false := by
  obtain ⟨ds, hrun, -, -⟩ := h
  intro c hc
  obtain ⟨d, hd⟩ := hrun.exists_last c hc
  exact hd.isBlank_eq_false

theorem IsUnsigned.ne_nil {n : Nat} (h : IsUnsigned s n) : s ≠ [] := by
  obtain ⟨ds, hrun, -, -⟩ := h
  exact hrun.ne_nil

theorem IsSigned.isBlank_head (h : IsSigned s n) : ∀ c ∈ s.head?, isBlank c = false := by
  intro c hc
  cases h with
  | bare h =>
      obtain ⟨rest, rfl⟩ := List.head?_eq_some_iff.mp hc
      obtain ⟨d, hd⟩ := h.exists_head
      exact hd.isBlank_eq_false
  | plus h =>
      cases hc
      decide
  | minus h =>
      cases hc
      decide

theorem IsSigned.isBlank_last (h : IsSigned s n) : ∀ c ∈ s.getLast?, isBlank c = false := by
  have hsign : ∀ {sign : Char} {s : Text} {n : Nat}, IsUnsigned s n →
      ∀ c ∈ (sign :: s).getLast?, isBlank c = false := by
    intro sign s n h c hc
    rw [← List.singleton_append, List.getLast?_append_of_ne_nil _ h.ne_nil] at hc
    exact h.isBlank_last c hc
  cases h with
  | bare h => exact h.isBlank_last
  | plus h => exact hsign h
  | minus h => exact hsign h

/-- What is made of an unsigned numeral behind a sign. -/
theorem map_natural?_eq_some_iff (f : Int → Int) :
    (natural? s >>= fun n => pure (n : Int)).map f = some n ↔ ∃ k : Nat, IsUnsigned s k ∧ f k = n := by
  simp only [Option.map_eq_some_iff, Option.bind_eq_bind, Option.bind_eq_some_iff, Option.pure_def,
    Option.some.injEq, natural?_eq_some_iff]
  constructor
  · rintro ⟨_, ⟨k, hk, rfl⟩, hn⟩
    exact ⟨k, hk, hn⟩
  · rintro ⟨k, hk, hn⟩
    exact ⟨_, ⟨k, hk, rfl⟩, hn⟩

theorem integer?_eq_some_iff_isSigned : integer? s = some n ↔ IsSigned (strip s) n := by
  have hsign : ∀ {sign : Char} {rest : Text} {k : Nat}, digit? sign = none → ¬IsUnsigned (sign :: rest) k :=
    fun hnone h => not_isDigit hnone h.exists_head.choose_spec
  unfold integer?
  split
  · next rest hstrip =>
    rw [hstrip, map_natural?_eq_some_iff]
    constructor
    · rintro ⟨k, h, rfl⟩
      exact .minus h
    · intro h
      cases h with
      | bare h => exact absurd h (hsign (by decide +kernel))
      | minus h => exact ⟨_, h, rfl⟩
  · next rest hstrip =>
    rw [hstrip, map_natural?_eq_some_iff]
    constructor
    · rintro ⟨k, h, rfl⟩
      exact .plus h
    · intro h
      cases h with
      | bare h => exact absurd h (hsign (by decide +kernel))
      | plus h => exact ⟨_, h, rfl⟩
  · next hminus hplus =>
    rw [map_natural?_eq_some_iff]
    constructor
    · rintro ⟨k, h, rfl⟩
      exact .bare h
    · generalize strip s = core at hminus hplus
      intro h
      cases h with
      | bare h => exact ⟨_, h, rfl⟩
      | plus _ => exact absurd rfl (hplus _)
      | minus _ => exact absurd rfl (hminus _)

/-- The reader of numerals accepts the ways to write an integer and nothing else. -/
theorem integer?_eq_some_iff : integer? s = some n ↔ IsNumeral s n := by
  rw [integer?_eq_some_iff_isSigned]
  constructor
  · intro h
    obtain ⟨after, hafter, hend⟩ := trimEnd_append_tail isBlank (s.dropWhile isBlank)
    refine ⟨s.takeWhile isBlank, strip s, after, ?_, h, fun c hc => List.mem_takeWhile_imp hc, hafter⟩
    rw [strip, trim, List.append_assoc, hend, List.takeWhile_append_dropWhile]
  · rintro ⟨before, core, after, rfl, h, hbefore, hafter⟩
    have hstrip : strip (before ++ core ++ after) = core := by
      rw [strip, trim_append_of_all hafter, trim_append_of_ends hbefore h.isBlank_head h.isBlank_last]
    rw [hstrip]
    exact h

end AtMark.Text

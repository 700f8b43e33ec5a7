import AtMark.Highlight.Pattern
import Mathlib.Data.List.Basic

/-!
# `Proofs.Highlight.Pattern`: what patterns match

Whatever comes out of running a pattern comes out of what follows one of its matches (`exists_of_run`), and of each
pattern can be computed whether its matches are never empty, or always (`consumes`, `isWidthless`).  The computation
goes by the form of the pattern and may miss a case, but what it says is so.

Backtracking ends early where only one match can be gone on behind.  A run of one class of characters is matched as
a whole if what follows cannot begin with a character of the class (`run_star_one`), and of some words of the class
only the whole run counts, whichever of them it begins with (`run_anyOf_of_run`).  The second is what makes a list of
names safe in which one name begins another: the order of the names in the list does not matter, as long as something
is asked for behind them that no name goes on with.

A match is a beginning of the text, so it is known by its length (`Match.ext_length`).  A pattern may look at what
follows, and never at what stands before; that some rules apply at the start of a line only is a matter of these rules.
-/

namespace AtMark.Highlight

namespace Match

variable {s : Text}

/-- A match is known by its length. -/
theorem ext_length {found other : Match s} (h : found.length = other.length) : found = other := by
  obtain ⟨n, rest, hn, hrest⟩ := found
  obtain ⟨m, rest', hm, hrest'⟩ := other
  obtain rfl : n = m := h
  obtain rfl : rest = rest' := hrest.symm.trans hrest'
  rfl

theorem taken_ofAppend (w rest : Text) (h : s = w ++ rest) : (ofAppend w rest h).taken = w := by
  subst h
  exact List.take_left

end Match

namespace Pattern

variable {α : Type} {a : α} {s : Text}

/-! ## Lengths of matches -/

/-- Is no match empty, as far as can be seen from the form of the pattern? -/
def consumes : Pattern → Bool
  | one _ => true
  | word w => !w.isEmpty
  | notBefore _ => false
  | seq first second => first.consumes || second.consumes
  | alt first second => first.consumes && second.consumes
  | star _ => false

/-- Is every match empty, as far as can be seen from the form of the pattern? -/
def isWidthless : Pattern → Bool
  | one _ => false
  | word w => w.isEmpty
  | notBefore _ => true
  | seq first second => first.isWidthless && second.isWidthless
  | alt first second => first.isWidthless && second.isWidthless
  | star _ => false

/-- A length that a match of the pattern may have. -/
structure Allows (pattern : Pattern) (n : Nat) : Prop where
  ne_zero : pattern.consumes = true → n ≠ 0
  eq_zero : pattern.isWidthless = true → n = 0

namespace Allows

variable {first second : Pattern} {n m : Nat}

theorem seq (hn : first.Allows n) (hm : second.Allows m) : (Pattern.seq first second).Allows (n + m) where
  ne_zero := by
    intro hconsumes hzero
    obtain ⟨hzero, hzero'⟩ := Nat.add_eq_zero_iff.mp hzero
    rcases Bool.or_eq_true_iff.mp hconsumes with hconsumes | hconsumes
    · exact hn.ne_zero hconsumes hzero
    · exact hm.ne_zero hconsumes hzero'
  eq_zero := by
    intro hwidthless
    obtain ⟨hfirst, hsecond⟩ := Bool.and_eq_true_iff.mp hwidthless
    exact Nat.add_eq_zero_iff.mpr ⟨hn.eq_zero hfirst, hm.eq_zero hsecond⟩

theorem alt_left (h : first.Allows n) : (alt first second).Allows n where
  ne_zero := fun hconsumes => h.ne_zero (Bool.and_eq_true_iff.mp hconsumes).1
  eq_zero := fun hwidthless => h.eq_zero (Bool.and_eq_true_iff.mp hwidthless).1

theorem alt_right (h : second.Allows n) : (alt first second).Allows n where
  ne_zero := fun hconsumes => h.ne_zero (Bool.and_eq_true_iff.mp hconsumes).2
  eq_zero := fun hwidthless => h.eq_zero (Bool.and_eq_true_iff.mp hwidthless).2

end Allows

theorem exists_of_repeated {round : ∀ t : Text, (Match t → Option α) → Option α}
    (hround : ∀ t next, round t next = some a → ∃ found : Match t, next found = some a) (found : Match s)
    {next : Match s → Option α} (h : repeated round found next = some a) : ∃ found, next found = some a := by
  fun_induction repeated round found next with
  | case1 found ih =>
      rw [Option.orElse_eq_or, Option.or_eq_some_iff] at h
      rcases h with h | ⟨-, h⟩
      · obtain ⟨more, hmore⟩ := hround _ _ h
        split at hmore
        · cases hmore
        next hlength => exact ih more hlength hmore
      · exact ⟨found, h⟩

/-- What comes out of a pattern comes out of what follows one of its matches. -/
theorem exists_of_run (pattern : Pattern) {next : Match s → Option α} (h : pattern.run s next = some a) :
    ∃ found : Match s, pattern.Allows found.length ∧ next found = some a := by
  induction pattern generalizing s with
  | one p =>
      unfold run at h
      split at h
      next c cs =>
        split at h
        · exact ⟨_, ⟨fun _ => Nat.one_ne_zero, nofun⟩, h⟩
        · cases h
      next => cases h
  | word w =>
      unfold run at h
      split at h
      next rest hskip => exact ⟨_, ⟨by simp [consumes, Match.ofAppend], by simp [isWidthless, Match.ofAppend]⟩, h⟩
      next => cases h
  | notBefore p =>
      unfold run at h
      split at h
      · cases h
      · exact ⟨_, ⟨nofun, fun _ => rfl⟩, h⟩
  | seq first second ihfirst ihsecond =>
      obtain ⟨before, hbefore, h⟩ := ihfirst h
      obtain ⟨behind, hbehind, h⟩ := ihsecond h
      exact ⟨before.append behind, hbefore.seq hbehind, h⟩
  | alt first second ihfirst ihsecond =>
      rw [run, Option.orElse_eq_or, Option.or_eq_some_iff] at h
      rcases h with h | ⟨-, h⟩
      · obtain ⟨found, hfound, h⟩ := ihfirst h
        exact ⟨found, hfound.alt_left, h⟩
      · obtain ⟨found, hfound, h⟩ := ihsecond h
        exact ⟨found, hfound.alt_right, h⟩
  | star body ih =>
      have hround : ∀ t (next : Match t → Option α), body.run t next = some a → ∃ found, next found = some a := by
        intro t next h
        obtain ⟨found, -, hfound⟩ := ih h
        exact ⟨found, hfound⟩
      obtain ⟨found, hfound⟩ := exists_of_repeated hround _ h
      exact ⟨found, ⟨nofun, nofun⟩, hfound⟩

-- The repetition gives one character back for the word behind it.
example : (seq (star (one (· == 'a'))) (word ['a', 'b'])).run ['a', 'a', 'b', 'c'] (fun found => some found.rest) =
    some ['c'] := by
  decide +kernel

/-! ## Words -/

theorem run_word_of_append {w rest : Text} (h : s = w ++ rest) (next : Match s → Option α) :
    (word w).run s next = next (.ofAppend w rest h) := by
  unfold run
  split
  next rest' hskip =>
    obtain rfl : rest' = rest := List.append_cancel_left ((Search.skip?_eq_some_iff.mp hskip).symm.trans h)
    rfl
  next hskip =>
    rw [Search.skip?_eq_some_iff.mpr h] at hskip
    cases hskip

theorem exists_of_run_word {w : Text} {next : Match s → Option α} (h : (word w).run s next = some a) :
    ∃ rest, ∃ hs : s = w ++ rest, next (.ofAppend w rest hs) = some a := by
  unfold run at h
  split at h
  next rest hskip => exact ⟨rest, Search.skip?_eq_some_iff.mp hskip, h⟩
  next => cases h

theorem run_word_eq_none {w : Text} (h : ∀ rest, s ≠ w ++ rest) (next : Match s → Option α) :
    (word w).run s next = none := by
  rw [Option.eq_none_iff_forall_ne_some]
  intro a hsome
  obtain ⟨rest, hs, -⟩ := exists_of_run_word hsome
  exact h rest hs

/-! ## Runs of one class of characters -/

section Class

variable {p : Char → Bool} {t rest : Text}

theorem run_one_of_head (h : ∀ c ∈ s.head?, p c = false) (next : Match s → Option α) :
    (one p).run s next = none := by
  cases s with
  | nil => rfl
  | cons c s => exact if_neg (Bool.eq_false_iff.mp (h c rfl))

theorem run_one_of_cons {c : Char} {cs : Text} (hc : p c = true) (h : s = c :: cs) (next : Match s → Option α) :
    (one p).run s next = next (.ofAppend [c] cs h) := by
  subst h
  exact if_pos hc

theorem repeated_one_of_head {found : Match s} (h : ∀ c ∈ found.rest.head?, p c = false)
    (next : Match s → Option α) : repeated (one p).run found next = next found := by
  rw [repeated, run_one_of_head h]
  rfl

theorem repeated_one_of_cons {found : Match s} {c : Char} {cs : Text} (hc : p c = true)
    (h : found.rest = c :: cs) (next : Match s → Option α) :
    repeated (one p).run found next =
      (repeated (one p).run (found.append (.ofAppend [c] cs h)) next).orElse fun _ => next found := by
  rw [repeated, run_one_of_cons hc h]
  rfl

/-- From a match on the longest run counts, if what follows goes on behind it, or nowhere before it. -/
theorem repeated_one (found : Match s) (ht : ∀ c ∈ t, p c = true) (hrest : ∀ c ∈ rest.head?, p c = false)
    (h : found.rest = t ++ rest) {next : Match s → Option α}
    (hnext : (next (found.append (.ofAppend t rest h))).isSome = true ∨
      ∀ other : Match s, (∃ c ∈ other.rest.head?, p c = true) → next other = none) :
    repeated (one p).run found next = next (found.append (.ofAppend t rest h)) := by
  induction t generalizing found with
  | nil =>
      have hhead : ∀ c ∈ found.rest.head?, p c = false := by
        rw [h]
        exact hrest
      rw [repeated_one_of_head hhead]
      exact congrArg next (Match.ext_length rfl)
  | cons c t ih =>
      obtain ⟨hc, ht⟩ := List.forall_mem_cons.mp ht
      have hcons : found.rest = c :: (t ++ rest) := h
      have hlongest : (found.append (.ofAppend [c] (t ++ rest) hcons)).append (.ofAppend t rest rfl) =
          found.append (.ofAppend (c :: t) rest h) := by
        refine Match.ext_length ?_
        simp only [Match.append, Match.ofAppend, List.length_cons, List.length_nil]
        omega
      rw [← hlongest] at hnext ⊢
      rw [repeated_one_of_cons hc hcons, ih _ ht rfl hnext]
      rcases hnext with hsome | hnone
      · obtain ⟨a, ha⟩ := Option.isSome_iff_exists.mp hsome
        rw [ha]
        rfl
      · have hshort : next found = none := by
          refine hnone found ⟨c, ?_, hc⟩
          rw [hcons]
          rfl
        rw [hshort, Option.orElse_eq_or, Option.or_none]

/-- A run of a class is matched as a whole, if what follows goes on behind it, or nowhere before it. -/
theorem run_star_one (ht : ∀ c ∈ t, p c = true) (hrest : ∀ c ∈ rest.head?, p c = false) (h : s = t ++ rest)
    {next : Match s → Option α}
    (hnext : (next (.ofAppend t rest h)).isSome = true ∨
      ∀ found : Match s, (∃ c ∈ found.rest.head?, p c = true) → next found = none) :
    (star (one p)).run s next = next (.ofAppend t rest h) := by
  have hwhole : (Match.nothing s).append (.ofAppend t rest h) = .ofAppend t rest h :=
    Match.ext_length (Nat.zero_add _)
  rw [← hwhole] at hnext ⊢
  exact repeated_one (.nothing s) ht hrest h hnext

theorem run_plus_one (hne : t ≠ []) (ht : ∀ c ∈ t, p c = true) (hrest : ∀ c ∈ rest.head?, p c = false)
    (h : s = t ++ rest) {next : Match s → Option α}
    (hnext : (next (.ofAppend t rest h)).isSome = true ∨
      ∀ found : Match s, (∃ c ∈ found.rest.head?, p c = true) → next found = none) :
    (plus (one p)).run s next = next (.ofAppend t rest h) := by
  obtain ⟨c, t, rfl⟩ := List.exists_cons_of_ne_nil hne
  obtain ⟨hc, ht⟩ := List.forall_mem_cons.mp ht
  have hcons : s = c :: (t ++ rest) := h
  have hwhole : (Match.ofAppend [c] (t ++ rest) hcons).append (.ofAppend t rest rfl) = .ofAppend (c :: t) rest h :=
    Match.ext_length (Nat.add_comm _ _)
  rw [← hwhole] at hnext ⊢
  rw [plus, run, run_one_of_cons hc hcons]
  exact run_star_one ht hrest rfl (hnext.imp_right fun hnone found hfound => hnone _ hfound)

/-- Of a word of the class only the whole run counts, if what follows goes on nowhere before the end of the run. -/
theorem run_word_of_run {w : Text} (ht : ∀ c ∈ t, p c = true) (hrest : ∀ c ∈ rest.head?, p c = false)
    (hw : ∀ c ∈ w, p c = true) {next : Match (t ++ rest) → Option α}
    (hnext : ∀ found : Match (t ++ rest), (∃ c ∈ found.rest.head?, p c = true) → next found = none) :
    (word w).run (t ++ rest) next = if t = w then next (.ofAppend t rest rfl) else none := by
  by_cases hwhole : t = w
  · subst hwhole
    rw [if_pos rfl, run_word_of_append rfl]
  rw [if_neg hwhole, Option.eq_none_iff_forall_ne_some]
  intro a h
  obtain ⟨behind, hparts, h⟩ := exists_of_run_word h
  have hend : ¬∃ c ∈ behind.head?, p c = true := by
    intro hinside
    rw [hnext (.ofAppend w behind hparts) hinside] at h
    cases h
  rcases List.append_eq_append_iff.mp hparts with ⟨v, rfl, hv⟩ | ⟨v, rfl, hv⟩
  · cases v with
    | nil => exact hwhole (List.append_nil t).symm
    | cons c v =>
        have hc : p c = false := hrest c (by rw [hv]; rfl)
        rw [hw c (List.mem_append_right t List.mem_cons_self)] at hc
        cases hc
  · cases v with
    | nil => exact hwhole (List.append_nil w)
    | cons c v => exact hend ⟨c, by rw [hv]; rfl, ht c (List.mem_append_right w List.mem_cons_self)⟩

/-- Of some words of the class the one that is the whole run counts, whichever of them the run begins with. -/
theorem run_anyOf_of_run {words : List Text} (ht : ∀ c ∈ t, p c = true) (hrest : ∀ c ∈ rest.head?, p c = false)
    (hwords : ∀ w ∈ words, ∀ c ∈ w, p c = true) {next : Match (t ++ rest) → Option α}
    (hnext : ∀ found : Match (t ++ rest), (∃ c ∈ found.rest.head?, p c = true) → next found = none) :
    (anyOf words).run (t ++ rest) next = if t ∈ words then next (.ofAppend t rest rfl) else none := by
  induction words with
  | nil =>
      rw [if_neg List.not_mem_nil]
      exact run_one_of_head (fun _ _ => rfl) next
  | cons w words ih =>
      obtain ⟨hw, hwords⟩ := List.forall_mem_cons.mp hwords
      have hfirst : (anyOf (w :: words)).run (t ++ rest) next =
          ((word w).run (t ++ rest) next).orElse fun _ => (anyOf words).run (t ++ rest) next := rfl
      rw [hfirst, run_word_of_run ht hrest hw hnext, ih hwords]
      by_cases hwhole : t = w
      · rw [if_pos hwhole, if_pos (List.mem_cons.mpr (.inl hwhole)), Option.orElse_eq_or]
        split
        · exact Option.or_self
        · exact Option.or_none
      · rw [if_neg hwhole]
        simp [hwhole]

end Class

end Pattern
end AtMark.Highlight

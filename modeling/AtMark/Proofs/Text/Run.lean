import AtMark.Text.Blank
import Mathlib.Data.List.Count
import Mathlib.Data.List.DropRight
import Mathlib.Data.List.TakeWhile

/-!
# `Proofs.Text.Run`: runs of a class of characters, and trimming

Readers stop at the first character outside a class.  Once such a character is there, nothing that follows
it matters: this is `takeWhile_append_of_mem` and `dropWhile_append_of_mem`.  Where the run ends with the text, what is
put behind may go on with it, and it has to be asked how that begins (`takeWhile_append_of_head`).

`trimEnd p` takes the longest run of the class `p` from the end, and nothing else.  Two facts say so and carry
the rest: characters of the class at the end do not count (`trimEnd_append_of_all`), and a character outside
the class is kept with all that stands before it (`trimEnd_cons`, `trimEnd_append`).  What was trimmed can
be put back, which is `trimEnd_append_tail`.

There are three classes of blanks, each within the next: what a line may be indented by, what may trail on a line, and
what is blank in Unicode.  Trimming one class after another is trimming the larger one (`trim_trimEnd`), so it does not
matter how often a reader has trimmed on the way.
-/

namespace AtMark.Text

variable {p q : Char → Bool} {c : Char} {s t : Text}

/-! ## Runs -/

theorem takeWhile_append_of_mem (hc : c ∈ s) (hp : p c = false) :
    (s ++ t).takeWhile p = s.takeWhile p := by
  induction s with
  | nil => exact absurd hc List.not_mem_nil
  | cons d s ih =>
      rw [List.cons_append, List.takeWhile_cons, List.takeWhile_cons]
      cases hd : p d with
      | false => rfl
      | true =>
          have hne : c ≠ d := fun h => by rw [h, hd] at hp; exact Bool.noConfusion hp
          rw [if_pos rfl, if_pos rfl, ih ((List.mem_cons.mp hc).resolve_left hne)]

theorem dropWhile_append_of_mem (hc : c ∈ s) (hp : p c = false) :
    (s ++ t).dropWhile p = s.dropWhile p ++ t := by
  induction s with
  | nil => exact absurd hc List.not_mem_nil
  | cons d s ih =>
      rw [List.cons_append, List.dropWhile_cons, List.dropWhile_cons]
      cases hd : p d with
      | false => rfl
      | true =>
          have hne : c ≠ d := fun h => by rw [h, hd] at hp; exact Bool.noConfusion hp
          rw [if_pos rfl, if_pos rfl, ih ((List.mem_cons.mp hc).resolve_left hne)]

/-- What stops a run is still there behind the run. -/
theorem mem_dropWhile (hc : c ∈ s) (hp : p c = false) : c ∈ s.dropWhile p := by
  have hsplit : c ∈ s.takeWhile p ++ s.dropWhile p := by
    rw [List.takeWhile_append_dropWhile]
    exact hc
  rcases List.mem_append.mp hsplit with h | h
  · rw [List.mem_takeWhile_imp h] at hp
    exact Bool.noConfusion hp
  · exact h

/-- A text that holds a character to stop at begins, behind its run, with some character, and so does the
text with more behind it. -/
theorem exists_cons_dropWhile (hc : c ∈ s) (hp : p c = false) (t : Text) :
    ∃ d ds, s.dropWhile p = d :: ds ∧ (s ++ t).dropWhile p = d :: (ds ++ t) ∧ c ∈ d :: ds := by
  have hmem := mem_dropWhile hc hp
  obtain ⟨d, ds, hd⟩ := List.exists_cons_of_ne_nil (List.ne_nil_of_mem hmem)
  refine ⟨d, ds, hd, ?_, hd ▸ hmem⟩
  rw [dropWhile_append_of_mem hc hp, hd]
  rfl

/-- A run that is followed by a character outside its class is the longest one. -/
theorem head?_dropWhile (p : Char → Bool) (s : Text) : ∀ c ∈ (s.dropWhile p).head?, p c = false := by
  intro c hc
  have hnot := List.head?_dropWhile_not p s
  rw [Option.mem_def.mp hc] at hnot
  exact hnot

theorem takeWhile_append_of_head (hs : ∀ c ∈ s, p c = true) (ht : ∀ c ∈ t.head?, p c = false) :
    (s ++ t).takeWhile p = s := by
  rw [List.takeWhile_append_of_pos hs]
  cases t with
  | nil => exact List.append_nil s
  | cons d t =>
      have hd : p d = false := ht d rfl
      rw [List.takeWhile_cons, hd, if_neg Bool.false_ne_true, List.append_nil]

theorem dropWhile_append_of_head (hs : ∀ c ∈ s, p c = true) (ht : ∀ c ∈ t.head?, p c = false) :
    (s ++ t).dropWhile p = t := by
  rw [List.dropWhile_append_of_pos hs]
  cases t with
  | nil => rfl
  | cons d t =>
      have hd : p d = false := ht d rfl
      rw [List.dropWhile_cons, hd, if_neg Bool.false_ne_true]

/-- A character outside the class keeps what is behind it, whether a run reaches it or not. -/
theorem dropWhile_append_of_stop (ht : ∀ c ∈ t.head?, p c = false) (s : Text) :
    (s ++ t).dropWhile p = s.dropWhile p ++ t := by
  by_cases hs : ∀ c ∈ s, p c = true
  · rw [dropWhile_append_of_head hs ht, List.dropWhile_eq_nil_iff.mpr hs, List.nil_append]
  · simp only [not_forall, Bool.not_eq_true] at hs
    obtain ⟨c, hc, hp⟩ := hs
    exact dropWhile_append_of_mem hc hp

/-! ## Trimming the end -/

theorem isPrefix_trimEnd (p : Char → Bool) (s : Text) : trimEnd p s <+: s :=
  List.rdropWhile_prefix p s

/-- The characters that trimming takes away. -/
theorem trimEnd_append_tail (p : Char → Bool) (s : Text) :
    ∃ tail, (∀ c ∈ tail, p c = true) ∧ trimEnd p s ++ tail = s :=
  ⟨s.rtakeWhile p, fun _ hc => List.mem_rtakeWhile_imp hc, List.rdropWhile_append_rtakeWhile⟩

theorem trimEnd_append_of_all (ht : ∀ c ∈ t, p c = true) : trimEnd p (s ++ t) = trimEnd p s := by
  unfold trimEnd
  rw [List.reverse_append, List.dropWhile_append_of_pos]
  intro c hc
  exact ht c (List.mem_reverse.mp hc)

theorem trimEnd_eq_nil_iff : trimEnd p s = [] ↔ ∀ c ∈ s, p c = true :=
  List.rdropWhile_eq_nil_iff

theorem trimEnd_eq_self (h : ∀ c ∈ s.getLast?, p c = false) : trimEnd p s = s := by
  refine List.rdropWhile_eq_self_iff.mpr fun hs => ?_
  have hlast := h _ (List.getLast?_eq_some_getLast hs)
  rw [hlast]
  exact Bool.false_ne_true

theorem trimEnd_cons_of_getLast? (h : ∀ d ∈ (c :: trimEnd p s).getLast?, p d = false) :
    trimEnd p (c :: s) = c :: trimEnd p s := by
  obtain ⟨tail, htail, hs⟩ := trimEnd_append_tail p s
  calc trimEnd p (c :: s)
      = trimEnd p (c :: trimEnd p s ++ tail) := by rw [List.cons_append, hs]
    _ = trimEnd p (c :: trimEnd p s) := trimEnd_append_of_all htail
    _ = c :: trimEnd p s := trimEnd_eq_self h

theorem trimEnd_cons_of_ne_nil (h : trimEnd p s ≠ []) : trimEnd p (c :: s) = c :: trimEnd p s := by
  refine trimEnd_cons_of_getLast? fun d hd => ?_
  rw [List.getLast?_cons, List.getLast?_eq_some_getLast h] at hd
  cases hd
  exact Bool.eq_false_iff.mpr (List.rdropWhile_last_not p s h)

theorem trimEnd_cons (hc : p c = false) : trimEnd p (c :: s) = c :: trimEnd p s := by
  by_cases hnil : trimEnd p s = []
  · refine trimEnd_cons_of_getLast? fun d hd => ?_
    rw [hnil] at hd
    cases hd
    exact hc
  · exact trimEnd_cons_of_ne_nil hnil

theorem trimEnd_append (h : ∀ c ∈ s, p c = false) : trimEnd p (s ++ t) = s ++ trimEnd p t := by
  induction s with
  | nil => rfl
  | cons c s ih =>
      rw [List.cons_append, trimEnd_cons (h c List.mem_cons_self),
        ih fun d hd => h d (List.mem_cons_of_mem _ hd), List.cons_append]

theorem trimEnd_append_of_ne_nil (h : trimEnd p t ≠ []) : trimEnd p (s ++ t) = s ++ trimEnd p t := by
  induction s with
  | nil => rfl
  | cons c s ih =>
      have hne : trimEnd p (s ++ t) ≠ [] := ih ▸ List.append_ne_nil_of_right_ne_nil s h
      rw [List.cons_append, trimEnd_cons_of_ne_nil hne, ih, List.cons_append]

/-! ## Trimming both ends -/

theorem isInfix_trim (p : Char → Bool) (s : Text) : trim p s <:+: s :=
  (isPrefix_trimEnd p _).isInfix.trans (List.dropWhile_suffix p).isInfix

/-- A run before a text whose own ends stay is all that goes. -/
theorem trim_append_of_ends (ht : ∀ c ∈ t, p c = true) (hhead : ∀ c ∈ s.head?, p c = false)
    (hlast : ∀ c ∈ s.getLast?, p c = false) : trim p (t ++ s) = s := by
  rw [trim, dropWhile_append_of_head ht hhead, trimEnd_eq_self hlast]

/-- Only characters at the ends count. -/
theorem trim_eq_self (hhead : ∀ c ∈ s.head?, p c = false) (hlast : ∀ c ∈ s.getLast?, p c = false) :
    trim p s = s :=
  trim_append_of_ends (t := []) (fun _ hc => absurd hc List.not_mem_nil) hhead hlast

theorem trim_append_of_all (ht : ∀ c ∈ t, p c = true) : trim p (s ++ t) = trim p s := by
  unfold trim
  rw [List.dropWhile_append]
  split
  · next h =>
    rw [List.isEmpty_iff.mp h, List.dropWhile_eq_nil_iff.mpr ht]
  · exact trimEnd_append_of_all ht

/-- Trimming a smaller class first changes nothing. -/
theorem trim_trimEnd (hpq : ∀ c, p c = true → q c = true) (s : Text) :
    trim q (trimEnd p s) = trim q s := by
  obtain ⟨tail, htail, hs⟩ := trimEnd_append_tail p s
  calc trim q (trimEnd p s)
      = trim q (trimEnd p s ++ tail) := (trim_append_of_all fun c hc => hpq c (htail c hc)).symm
    _ = trim q s := by rw [hs]

theorem trim_eq_nil_iff : trim p s = [] ↔ ∀ c ∈ s, p c = true := by
  unfold trim
  rw [trimEnd_eq_nil_iff]
  constructor
  · intro h c hc
    by_contra hp
    exact hp (h c (mem_dropWhile hc (Bool.eq_false_iff.mpr hp)))
  · intro h c hc
    exact h c ((List.dropWhile_suffix p).subset hc)

/-- Trimming takes away no character outside its class. -/
theorem count_trim (hc : p c = false) (s : Text) : (trim p s).count c = s.count c := by
  have hnot : ∀ {t : Text}, (∀ d ∈ t, p d = true) → t.count c = 0 :=
    fun ht => List.count_eq_zero.mpr fun hmem => Bool.noConfusion (hc.symm.trans (ht c hmem))
  obtain ⟨tail, htail, hs⟩ := trimEnd_append_tail p (s.dropWhile p)
  calc (trim p s).count c
      = (trim p s ++ tail).count c := by rw [List.count_append, hnot htail, Nat.add_zero]
    _ = (s.dropWhile p).count c := by rw [trim, hs]
    _ = (s.takeWhile p ++ s.dropWhile p).count c := by
        rw [List.count_append, hnot fun d hd => List.mem_takeWhile_imp hd, Nat.zero_add]
    _ = s.count c := by rw [List.takeWhile_append_dropWhile]

/-! ## Classes of blanks -/

theorem isBlank_of_isIndent {c : Char} (h : isIndent c = true) : isBlank c = true := by
  rw [isIndent, Bool.or_eq_true, beq_iff_eq, beq_iff_eq] at h
  rcases h with rfl | rfl
  · decide
  · decide

theorem isBlank_of_isTrailing {c : Char} (h : isTrailing c = true) : isBlank c = true := by
  rcases Bool.or_eq_true_iff.mp h with h | h
  · exact isBlank_of_isIndent h
  · rw [beq_iff_eq.mp h]
    decide

theorem isIndent_eq_false {c : Char} (h : isBlank c = false) : isIndent c = false :=
  Bool.eq_false_iff.mpr fun hc => Bool.noConfusion (h.symm.trans (isBlank_of_isIndent hc))

theorem isTrailing_eq_false {c : Char} (h : isBlank c = false) : isTrailing c = false :=
  Bool.eq_false_iff.mpr fun hc => Bool.noConfusion (h.symm.trans (isBlank_of_isTrailing hc))

theorem dropWhile_isTrailing (h : (s.dropWhile isIndent).head? ≠ some '\r') :
    s.dropWhile isTrailing = s.dropWhile isIndent := by
  induction s with
  | nil => rfl
  | cons c s ih =>
      cases hc : isIndent c with
      | true =>
          rw [List.dropWhile_cons_of_pos hc] at h ⊢
          rw [List.dropWhile_cons_of_pos (by rw [isTrailing, hc, Bool.true_or])]
          exact ih h
      | false =>
          have hstop : (c :: s).dropWhile isIndent = c :: s :=
            List.dropWhile_cons_of_neg (Bool.eq_false_iff.mp hc)
          rw [hstop] at h ⊢
          refine List.dropWhile_cons_of_neg ?_
          rw [isTrailing, hc, Bool.false_or, beq_iff_eq]
          rintro rfl
          exact h rfl

theorem getLast?_trim : ∀ c ∈ (trim p s).getLast?, p c = false := by
  intro c hc
  have hne : trim p s ≠ [] := by
    intro hnil
    rw [hnil] at hc
    exact absurd hc (by simp)
  rw [List.getLast?_eq_some_getLast hne] at hc
  cases hc
  exact Bool.eq_false_iff.mpr (List.rdropWhile_last_not p _ hne)

theorem head?_trim : ∀ c ∈ (trim p s).head?, p c = false := by
  intro c hc
  have hnot := List.head?_dropWhile_not p s
  obtain ⟨t, ht⟩ := isPrefix_trimEnd p (s.dropWhile p)
  rw [← ht, List.head?_append, show (trimEnd p (s.dropWhile p)).head? = some c from hc] at hnot
  exact hnot

end AtMark.Text

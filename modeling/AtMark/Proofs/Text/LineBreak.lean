import AtMark.Proofs.Text.Line

/-!
# `Proofs.Text.LineBreak`: two ways to end a line

A line may end in a newline alone or in a carriage return and a newline.  `Returned e s t` says that `t` is
the text `s` with carriage returns put before some of its newlines, and with `e` behind it.  With nothing
behind it this relates a source to the same source with other line ends; with a carriage return behind it,
it relates a line to the line of that other source.

Readers stop at both characters of a line break, so on related texts they read the same run and leave
related texts (`Returned.takeWhile_eq`, `Returned.dropWhile`).  The first lines of related texts differ by a
carriage return at most, and what follows them is related again (`Returned.firstLine`,
`Returned.afterLine`).  So a reader that is made of runs and lines can be followed through both texts at once, which
is what `Proofs.Token.LineBreak` does.

The relation is one-sided: it puts carriage returns in and takes none out, and a text with carriage returns elsewhere
is related to others only if they hold the same.  Not every newline has to get one, so sources with line ends of both
kinds are covered as well.
-/

namespace AtMark.Text

/-- The second text is the first with carriage returns before some of its newlines, and `e` behind it. -/
inductive Returned (e : Text) : Text → Text → Prop
  | nil : Returned e [] e
  | cons (c : Char) {s t : Text} : Returned e s t → Returned e (c :: s) (c :: t)
  | line {s t : Text} : Returned e s t → Returned e ('\n' :: s) ('\r' :: '\n' :: t)

/-- What may stand unseen at the end of a line: nothing, or the carriage return of its line break. -/
def IsLineTail (e : Text) : Prop :=
  e = [] ∨ e = ['\r']

theorem IsLineTail.eq_return {e : Text} (h : IsLineTail e) : ∀ c ∈ e, c = '\r' := by
  intro c hc
  rcases h with rfl | rfl
  · exact absurd hc List.not_mem_nil
  · exact List.mem_singleton.mp hc

namespace Returned

variable {e s t : Text} {p : Char → Bool}

theorem append (e : Text) : ∀ s : Text, Returned e s (s ++ e) := by
  intro s
  induction s with
  | nil => exact .nil
  | cons c s ih => exact .cons c ih

theorem eq_of_nil (h : Returned e [] t) : t = e := by
  cases h with
  | nil => rfl

theorem eq_nil_iff (h : Returned [] s t) : t = [] ↔ s = [] := by
  cases h with
  | nil => simp
  | cons c h => simp
  | line h => simp

/-- Any other character than a newline stands where it stood. -/
theorem exists_cons {c : Char} (hc : c ≠ '\n') (h : Returned e (c :: s) t) :
    ∃ t', t = c :: t' ∧ Returned e s t' := by
  cases h with
  | cons _ h => exact ⟨_, rfl, h⟩
  | line h => exact absurd rfl hc

theorem exists_append {a : Text} (ha : '\n' ∉ a) (h : Returned e (a ++ s) t) :
    ∃ t', t = a ++ t' ∧ Returned e s t' := by
  induction a generalizing t with
  | nil => exact ⟨t, rfl, h⟩
  | cons c a ih =>
      have hc : c ≠ '\n' := fun heq => ha (heq ▸ List.mem_cons_self)
      obtain ⟨u, rfl, hu⟩ := h.exists_cons hc
      obtain ⟨t', rfl, ht'⟩ := ih (fun hmem => ha (List.mem_cons_of_mem _ hmem)) hu
      exact ⟨t', rfl, ht'⟩

/-- What stands at the start of the second text is a carriage return, or stands at the start of the first. -/
theorem exists_cons_left {c : Char} (hr : c ≠ '\r') (he : IsLineTail e) (h : Returned e s (c :: t)) :
    ∃ s', s = c :: s' := by
  cases h with
  | nil => exact absurd (he.eq_return c List.mem_cons_self) hr
  | cons _ h => exact ⟨_, rfl⟩
  | line h => exact absurd rfl hr

theorem not_mem {c : Char} (hr : c ≠ '\r') (he : IsLineTail e) (h : Returned e s t) (hc : c ∉ s) :
    c ∉ t := by
  induction h with
  | nil => exact fun hmem => hr (he.eq_return c hmem)
  | cons d h ih =>
      intro hmem
      rcases List.mem_cons.mp hmem with rfl | hmem
      · exact hc List.mem_cons_self
      · exact ih (fun h => hc (List.mem_cons_of_mem _ h)) hmem
  | line h ih =>
      intro hmem
      rcases List.mem_cons.mp hmem with rfl | hmem
      · exact hr rfl
      · rcases List.mem_cons.mp hmem with rfl | hmem
        · exact hc List.mem_cons_self
        · exact ih (fun h => hc (List.mem_cons_of_mem _ h)) hmem

/-! ## Runs -/

theorem takeWhile_eq (he : IsLineTail e) (hr : p '\r' = false) (hn : p '\n' = false)
    (h : Returned e s t) : t.takeWhile p = s.takeWhile p := by
  induction h with
  | nil =>
      rcases he with rfl | rfl
      · rfl
      · rw [List.takeWhile_cons, hr]
        rfl
  | cons c h ih =>
      rw [List.takeWhile_cons, List.takeWhile_cons, ih]
  | line h ih =>
      rw [List.takeWhile_cons_of_neg (Bool.eq_false_iff.mp hr),
        List.takeWhile_cons_of_neg (Bool.eq_false_iff.mp hn)]

theorem dropWhile (he : IsLineTail e) (hr : p '\r' = false) (hn : p '\n' = false)
    (h : Returned e s t) : Returned e (s.dropWhile p) (t.dropWhile p) := by
  induction h with
  | nil =>
      rcases he with rfl | rfl
      · exact .nil
      · rw [List.dropWhile_cons, hr]
        exact .nil
  | @cons c s t h ih =>
      rw [List.dropWhile_cons, List.dropWhile_cons]
      cases hc : p c with
      | true => exact ih
      | false => exact .cons c h
  | line h ih =>
      rw [List.dropWhile_cons, List.dropWhile_cons, hr, hn]
      exact .line h

/-! ## Lines -/

theorem firstLine (h : Returned [] s t) :
    ∃ e, IsLineTail e ∧ Text.firstLine t = Text.firstLine s ++ e := by
  induction h with
  | nil => exact ⟨[], .inl rfl, rfl⟩
  | @cons c s t h ih =>
      obtain ⟨e, he, hline⟩ := ih
      unfold Text.firstLine at hline ⊢
      rw [List.takeWhile_cons, List.takeWhile_cons]
      cases hc : isInLine c with
      | true => exact ⟨e, he, congrArg (c :: ·) hline⟩
      | false => exact ⟨[], .inl rfl, rfl⟩
  | line h ih => exact ⟨['\r'], .inr rfl, rfl⟩

theorem fromLineEnd (h : Returned [] s t) : Returned [] (Text.fromLineEnd s) (Text.fromLineEnd t) := by
  induction h with
  | nil => exact .nil
  | @cons c s t h ih =>
      unfold Text.fromLineEnd at ih ⊢
      rw [List.dropWhile_cons, List.dropWhile_cons]
      cases hc : isInLine c with
      | true => exact ih
      | false => exact .cons c h
  | line h ih => exact .cons '\n' h

theorem afterLine (h : Returned [] s t) : Returned [] (Text.afterLine s) (Text.afterLine t) := by
  induction h with
  | nil => exact .nil
  | @cons c s t h ih =>
      unfold Text.afterLine Text.fromLineEnd at ih ⊢
      rw [List.dropWhile_cons, List.dropWhile_cons]
      cases hc : isInLine c with
      | true => exact ih
      | false => exact h
  | line h ih => exact h

/-! ## All line breaks -/

theorem flatMap (s : Text) :
    Returned [] s (s.flatMap fun c => if c = '\n' then ['\r', '\n'] else [c]) := by
  induction s with
  | nil => exact .nil
  | cons c s ih =>
      rw [List.flatMap_cons]
      by_cases hc : c = '\n'
      · subst hc
        exact .line ih
      · rw [if_neg hc]
        exact .cons c ih

end Returned

/-! ## Trimming -/

theorem trimEnd_append_lineTail {e s : Text} {p : Char → Bool} (he : IsLineTail e)
    (hp : p '\r' = true) : trimEnd p (s ++ e) = trimEnd p s :=
  trimEnd_append_of_all fun c hc => he.eq_return c hc ▸ hp

theorem trim_append_lineTail {e s : Text} {p : Char → Bool} (he : IsLineTail e)
    (hp : p '\r' = true) : trim p (s ++ e) = trim p s :=
  trim_append_of_all fun c hc => he.eq_return c hc ▸ hp

theorem dropWhile_append_lineTail {e s : Text} {p : Char → Bool} (he : IsLineTail e)
    (hp : p '\r' = false) : (s ++ e).dropWhile p = s.dropWhile p ++ e := by
  rcases he with rfl | rfl
  · rw [List.append_nil, List.append_nil]
  · rw [List.dropWhile_append]
    split
    · next h =>
      rw [List.isEmpty_iff.mp h, List.dropWhile_cons, hp]
      rfl
    · rfl

end AtMark.Text

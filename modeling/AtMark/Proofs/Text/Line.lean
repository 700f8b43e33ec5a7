import AtMark.Proofs.Text.Run
import AtMark.Text.Lines

/-!
# `Proofs.Text.Line`: lines in a longer text

Every reader works on what is left of the source, so a statement about one line, or about one part of a
source, needs to know what the readers of lines do when more text stands behind it.  A line with its newline
is read the same whatever comes after it (`firstLine_append`, `afterLine_append`).

`EndsLine` is the shape of a text that may be followed by a line of its own: it is empty, or its last
character is a newline.  What is left of such a text has the same shape (`EndsLine.of_suffix`), and that is the
invariant under which a source can be cut in two.  For the first line alone less is enough: the text behind does not
add to it if there is a newline before it or at its start (`Stops`).

A last line may have no newline behind it, and then nothing is left behind it (`getLast?_of_afterLine_eq_nil` tells
the two apart).  The functions are total all the same: a text without a newline is its own first line.
-/

namespace AtMark.Text

/-! ## The first line of a longer text -/

section FirstLine
variable {s t line : Text}

theorem isInLine_newline : isInLine '\n' = false := rfl

theorem isInLine_of_not_mem (h : '\n' ∉ line) : ∀ c ∈ line, isInLine c = true := by
  intro c hc
  have hne : c ≠ '\n' := fun he => h (he ▸ hc)
  exact bne_iff_ne.mpr hne

/-- A line with its newline is read the same whatever stands behind it. -/
theorem firstLine_append (h : '\n' ∈ s) : firstLine (s ++ t) = firstLine s :=
  takeWhile_append_of_mem h isInLine_newline

theorem fromLineEnd_append (h : '\n' ∈ s) : fromLineEnd (s ++ t) = fromLineEnd s ++ t :=
  dropWhile_append_of_mem h isInLine_newline

theorem afterLine_append (h : '\n' ∈ s) : afterLine (s ++ t) = afterLine s ++ t := by
  have hne : fromLineEnd s ≠ [] := List.ne_nil_of_mem (mem_dropWhile h isInLine_newline)
  unfold afterLine
  rw [fromLineEnd_append h, List.drop_append_of_le_length (List.length_pos_iff.mpr hne)]

/-- A line ends where the text behind it begins with a newline, and at the end of the text. -/
theorem firstLine_append_of_head (h : '\n' ∉ line) (ht : ∀ c ∈ t.head?, c = '\n') : firstLine (line ++ t) = line :=
  takeWhile_append_of_head (isInLine_of_not_mem h) fun c hc => by rw [ht c hc, isInLine_newline]

theorem fromLineEnd_append_of_head (h : '\n' ∉ line) (ht : ∀ c ∈ t.head?, c = '\n') : fromLineEnd (line ++ t) = t :=
  dropWhile_append_of_head (isInLine_of_not_mem h) fun c hc => by rw [ht c hc, isInLine_newline]

theorem afterLine_append_of_head (h : '\n' ∉ line) (ht : ∀ c ∈ t.head?, c = '\n') :
    afterLine (line ++ t) = t.drop 1 := by
  rw [afterLine, fromLineEnd_append_of_head h ht]

theorem firstLine_line (h : '\n' ∉ line) : firstLine (line ++ '\n' :: t) = line :=
  firstLine_append_of_head h fun _ hc => (Option.some.inj hc).symm

theorem fromLineEnd_line (h : '\n' ∉ line) : fromLineEnd (line ++ '\n' :: t) = '\n' :: t :=
  fromLineEnd_append_of_head h fun _ hc => (Option.some.inj hc).symm

theorem afterLine_line (h : '\n' ∉ line) : afterLine (line ++ '\n' :: t) = t :=
  afterLine_append_of_head h fun _ hc => (Option.some.inj hc).symm

theorem firstLine_eq_self (h : '\n' ∉ line) : firstLine line = line :=
  List.takeWhile_eq_self_iff.mpr (isInLine_of_not_mem h)

theorem fromLineEnd_eq_nil (h : '\n' ∉ line) : fromLineEnd line = [] :=
  List.dropWhile_eq_nil_iff.mpr (isInLine_of_not_mem h)

theorem afterLine_eq_nil (h : '\n' ∉ line) : afterLine line = [] := by
  rw [afterLine, fromLineEnd_eq_nil h, List.drop_nil]

theorem fromLineEnd_eq_nil_or (s : Text) : fromLineEnd s = [] ∨ ∃ t, fromLineEnd s = '\n' :: t := by
  have hnot := List.head?_dropWhile_not isInLine s
  unfold fromLineEnd
  cases hd : s.dropWhile isInLine with
  | nil => exact .inl rfl
  | cons c t =>
      rw [hd] at hnot
      have hc : c = '\n' := by simpa [isInLine] using hnot
      exact .inr ⟨t, by rw [hc]⟩

/-- A run that a newline stops ends with the line. -/
theorem takeWhile_append_fromLineEnd {p : Char → Bool} (hp : p '\n' = false) (line s : Text) :
    (line ++ fromLineEnd s).takeWhile p = line.takeWhile p := by
  induction line with
  | nil =>
      rcases fromLineEnd_eq_nil_or s with h | ⟨t, h⟩
      · rw [h]
        rfl
      · rw [h]
        exact List.takeWhile_cons_of_neg (Bool.eq_false_iff.mp hp)
  | cons c line ih => rw [List.cons_append, List.takeWhile_cons, List.takeWhile_cons, ih]

theorem takeWhile_firstLine {p : Char → Bool} (hp : p '\n' = false) (s : Text) :
    (firstLine s).takeWhile p = s.takeWhile p := by
  rw [← takeWhile_append_fromLineEnd hp (firstLine s) s, firstLine_append_fromLineEnd]

theorem head?_append_fromLineEnd {c : Char} (hc : c ≠ '\n') (line s : Text) :
    (line ++ fromLineEnd s).head? = some c ↔ line.head? = some c := by
  cases line with
  | nil =>
      rcases fromLineEnd_eq_nil_or s with h | ⟨t, h⟩
      · rw [h]
        rfl
      · rw [h]
        exact iff_of_false (fun h => hc (Option.some.inj h).symm) nofun
  | cons d line => rfl

theorem not_mem_firstLine (s : Text) : '\n' ∉ firstLine s := by
  intro h
  exact Bool.noConfusion (isInLine_newline.symm.trans (List.mem_takeWhile_imp h))

/-- The first line is over before the second text adds to it. -/
def Stops (s t : Text) : Prop :=
  '\n' ∈ s ∨ t.head? = some '\n'

theorem Stops.firstLine_append (h : Stops s t) : firstLine (s ++ t) = firstLine s := by
  by_cases hmem : '\n' ∈ s
  · exact Text.firstLine_append hmem
  · obtain ⟨t', rfl⟩ := List.head?_eq_some_iff.mp (h.resolve_left hmem)
    rw [firstLine_line hmem, firstLine_eq_self hmem]

theorem Stops.fromLineEnd_append (h : Stops s t) : fromLineEnd (s ++ t) = fromLineEnd s ++ t := by
  by_cases hmem : '\n' ∈ s
  · exact Text.fromLineEnd_append hmem
  · obtain ⟨t', rfl⟩ := List.head?_eq_some_iff.mp (h.resolve_left hmem)
    rw [fromLineEnd_line hmem, fromLineEnd_eq_nil hmem, List.nil_append]

theorem mem_of_afterLine_ne_nil (h : afterLine s ≠ []) : '\n' ∈ s := by
  by_contra hnot
  exact h (afterLine_eq_nil hnot)

/-- A line that has its newline, and what follows it. -/
theorem eq_line_of_mem (h : '\n' ∈ s) : s = firstLine s ++ '\n' :: afterLine s := by
  rcases fromLineEnd_eq_nil_or s with hend | ⟨t, hend⟩
  · have hmem := mem_dropWhile h isInLine_newline
    rw [← fromLineEnd, hend] at hmem
    exact absurd hmem List.not_mem_nil
  · have hafter : afterLine s = t := by rw [afterLine, hend, List.drop_one, List.tail_cons]
    rw [hafter, ← hend, firstLine_append_fromLineEnd]

/-- Where nothing is left behind a line, its newline is the last character. -/
theorem getLast?_of_afterLine_eq_nil (h : '\n' ∈ s) (hnil : afterLine s = []) : s.getLast? = some '\n' := by
  rw [eq_line_of_mem h, hnil, List.getLast?_concat]

end FirstLine

/-! ## Lines put together -/

/-- Lines, each with its newline. -/
def ofLines (lines : List Text) : Text :=
  lines.flatMap fun line => line ++ ['\n']

theorem ofLines_cons (line : Text) (lines : List Text) :
    ofLines (line :: lines) = line ++ '\n' :: ofLines lines := by
  rw [ofLines, List.flatMap_cons, List.append_assoc]
  rfl

/-- How lines with some text behind them begin. -/
theorem head?_ofLines_append {P : Char → Prop} {lines : List Text} {s : Text} (hline : P '\n')
    (hlines : ∀ line ∈ lines.head?, ∀ c ∈ line.head?, P c)
    (hs : lines = [] → ∀ c ∈ s.head?, P c) : ∀ c ∈ (ofLines lines ++ s).head?, P c := by
  intro c hc
  cases lines with
  | nil => exact hs rfl c hc
  | cons line lines =>
      rw [ofLines_cons] at hc
      cases line with
      | nil =>
          cases hc
          exact hline
      | cons d line =>
          cases hc
          exact hlines _ rfl _ rfl

theorem joinLines_singleton (line : Text) : joinLines [line] = line :=
  List.append_nil line

/-! ## Texts that end their last line -/

/-- Nothing, or lines each of which has its newline. -/
def EndsLine (s : Text) : Prop :=
  s = [] ∨ s.getLast? = some '\n'

namespace EndsLine

variable {s t : Text}

theorem mem (h : EndsLine s) (hs : s ≠ []) : '\n' ∈ s :=
  List.mem_of_getLast? (h.resolve_left hs)

/-- What is left of a text that ends its last line ends its last line. -/
theorem of_suffix (h : EndsLine s) (ht : t <:+ s) : EndsLine t := by
  by_cases hnil : t = []
  · exact .inl hnil
  · obtain ⟨front, rfl⟩ := ht
    have hne : front ++ t ≠ [] := fun he => hnil (List.append_eq_nil_iff.mp he).2
    have hlast := h.resolve_left hne
    rw [List.getLast?_append_of_ne_nil _ hnil] at hlast
    exact .inr hlast

end EndsLine
end AtMark.Text

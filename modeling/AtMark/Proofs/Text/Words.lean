import AtMark.Proofs.Text.Line
import AtMark.Text.Blank
import Mathlib.Data.List.Chain

/-!
# `Proofs.Text.Words`: lines and words put together and taken apart

Free text is cut at line breaks and lines are cut at blanks, each by one function that goes character by
character.  Two equations describe each of them: a piece with a separator behind it is cut off whole
(`lines_line`, `words_word`), and a piece alone is all there is (`lines_unbroken`, `words_solid`).  So lines
joined by newlines are found again, as are words joined by spaces (`lines_joinLines`, `words_intercalate`).

Texts of any lines joined by a newline have the lines of both, with at most an empty line between them
(`lines_seam`).  The empty line is there if the first text ends in a break already, unless that is a carriage return,
which makes one break with the newline.

Where the blanks between the words are to stay, a text is taken word by word instead: `words_induction` goes over a text
in this way, and `mapWords` changes each word and nothing else.  A change that gives words again can be followed by
another one, and both are made in one go (`mapWords_mapWords`).

A blank is what is blank in Unicode, and every line break is one (`isBlank_of_isLineBreak`).  The lines of a source,
which end in newlines only, are in `Proofs.Text.Line`.
-/

namespace AtMark.Text

variable {c : Char} {line word s t : Text}

theorem mem_intercalate {sep : Text} {pieces : List Text} (h : c ∈ List.intercalate sep pieces) :
    c ∈ sep ∨ ∃ piece ∈ pieces, c ∈ piece := by
  induction pieces with
  | nil => exact absurd h List.not_mem_nil
  | cons piece pieces ih =>
      cases pieces with
      | nil =>
          rw [List.intercalate_singleton] at h
          exact .inr ⟨piece, List.mem_cons_self, h⟩
      | cons next pieces =>
          rw [List.intercalate_cons_cons, List.append_assoc] at h
          rcases List.mem_append.mp h with h | h
          · exact .inr ⟨piece, List.mem_cons_self, h⟩
          · rcases List.mem_append.mp h with h | h
            · exact .inl h
            · refine (ih h).imp_right ?_
              rintro ⟨p, hp, hc⟩
              exact ⟨p, List.mem_cons_of_mem _ hp, hc⟩

theorem infix_intercalate {sep piece : Text} {pieces : List Text} (h : piece ∈ pieces) :
    piece <:+: List.intercalate sep pieces := by
  induction pieces with
  | nil => exact absurd h List.not_mem_nil
  | cons first pieces ih =>
      cases pieces with
      | nil =>
          have hsame : List.intercalate sep [first] = piece :=
            List.intercalate_singleton.trans (List.mem_singleton.mp h).symm
          exact hsame ▸ List.infix_refl piece
      | cons next pieces =>
          rw [List.intercalate_cons_cons]
          rcases List.mem_cons.mp h with rfl | hmem
          · exact ((List.prefix_append piece sep).trans (List.prefix_append _ _)).isInfix
          · exact (ih hmem).trans (List.suffix_append _ _).isInfix

/-! ## Lines of free text -/

theorem isBlank_of_isLineBreak (h : isLineBreak c = true) : isBlank c = true := by
  simp [isLineBreak, isBlank, blankRanges] at h ⊢
  omega

theorem lines_cons (hc : isLineBreak c = false) (s : Text) : lines (c :: s) = consToFirst c (lines s) := by
  rw [lines, hc]
  · rfl
  · rintro cs rfl -
    exact absurd hc (by decide)

theorem lines_break (hc : isLineBreak c = true) (hs : c = '\r' → s.head? ≠ some '\n') :
    lines (c :: s) = [] :: lines s := by
  rw [lines, if_pos hc]
  rintro cs rfl rfl
  exact hs rfl rfl

theorem lines_ne_nil (hs : s ≠ []) : lines s ≠ [] := by
  fun_induction lines s with
  | case1 => exact absurd rfl hs
  | case2 s ih => exact List.cons_ne_nil _ _
  | case3 c s hpair hc ih => exact List.cons_ne_nil _ _
  | case4 c s hpair hc ih =>
      cases lines s with
      | nil => exact List.cons_ne_nil _ _
      | cons l ls => exact List.cons_ne_nil _ _

theorem consToFirst_append {ls : List Text} (hls : ls ≠ []) (more : List Text) :
    consToFirst c (ls ++ more) = consToFirst c ls ++ more := by
  obtain ⟨l, ls, rfl⟩ := List.exists_cons_of_ne_nil hls
  rfl

/-- A newline between two texts ends the last line of the first, or it makes one break with the carriage return before
it; behind another break it ends an empty line. -/
theorem lines_seam (s t : Text) :
    lines (s ++ '\n' :: t) = lines s ++ lines t ∨ lines (s ++ '\n' :: t) = lines s ++ [] :: lines t := by
  fun_induction lines s with
  | case1 => exact .inr rfl
  | case2 s ih => exact ih.imp (congrArg ([] :: ·)) (congrArg ([] :: ·))
  | case3 c s hpair hc ih =>
      by_cases hreturn : c = '\r' ∧ s = []
      · obtain ⟨rfl, rfl⟩ := hreturn
        exact .inl rfl
      · -- No other break goes together with the newline behind the first text.
        have hcut : lines (c :: (s ++ '\n' :: t)) = [] :: lines (s ++ '\n' :: t) := by
          refine lines_break hc ?_
          rintro rfl hhead
          cases s with
          | nil => exact hreturn ⟨rfl, rfl⟩
          | cons d s => exact hpair s rfl (congrArg (· :: s) (Option.some.inj hhead))
        rw [List.cons_append, hcut]
        exact ih.imp (congrArg ([] :: ·)) (congrArg ([] :: ·))
  | case4 c s hpair hc ih =>
      rw [Bool.not_eq_true] at hc
      rw [List.cons_append, lines_cons hc]
      by_cases hs : s = []
      · subst hs
        exact .inl rfl
      · have hne := lines_ne_nil hs
        refine ih.imp (fun h => ?_) (fun h => ?_)
        · rw [h, consToFirst_append hne]
        · rw [h, consToFirst_append hne]

theorem lines_line (hline : ∀ c ∈ line, isLineBreak c = false) (s : Text) :
    lines (line ++ '\n' :: s) = line :: lines s := by
  induction line with
  | nil => rfl
  | cons c line ih =>
      obtain ⟨hc, hline⟩ := List.forall_mem_cons.mp hline
      rw [List.cons_append, lines_cons hc, ih hline]
      rfl

theorem lines_unbroken (hne : line ≠ []) (hline : ∀ c ∈ line, isLineBreak c = false) :
    lines line = [line] := by
  induction line with
  | nil => exact absurd rfl hne
  | cons c line ih =>
      obtain ⟨hc, hline⟩ := List.forall_mem_cons.mp hline
      rw [lines_cons hc]
      cases line with
      | nil => rfl
      | cons d line =>
          rw [ih (List.cons_ne_nil d line) hline]
          rfl

/-- Joined lines are the lines of their text if they hold no break and none is empty. -/
theorem lines_joinLines {ls : List Text} (h : ∀ l ∈ ls, l ≠ [] ∧ ∀ c ∈ l, isLineBreak c = false) :
    lines (joinLines ls) = ls := by
  induction ls with
  | nil => rfl
  | cons l ls ih =>
      obtain ⟨⟨hne, hl⟩, hls⟩ := List.forall_mem_cons.mp h
      cases ls with
      | nil => rw [joinLines_singleton, lines_unbroken hne hl]
      | cons next ls =>
          have hjoin : joinLines (l :: next :: ls) = l ++ '\n' :: joinLines (next :: ls) := by
            rw [joinLines, List.intercalate_cons_cons, List.append_assoc]
            rfl
          rw [hjoin, lines_line hl, ih hls]

/-! ## Words -/

theorem firstWord_append (hword : ∀ c ∈ word, isSolid c = true) (s : Text) :
    firstWord (word ++ s) = (word ++ (firstWord s).1, (firstWord s).2) := by
  induction word with
  | nil => rfl
  | cons c word ih =>
      obtain ⟨hc, hword⟩ := List.forall_mem_cons.mp hword
      have hblank : ¬isBlank c = true := by simpa [isSolid] using hc
      rw [List.cons_append, firstWord, ih hword]
      exact if_neg hblank

theorem firstWord_blank (hc : isBlank c = true) (s : Text) : firstWord (c :: s) = ([], words s) := by
  rw [firstWord]
  exact if_pos hc

theorem words_blank (hc : isBlank c = true) (s : Text) : words (c :: s) = words s := by
  rw [words, firstWord_blank hc]
  rfl

theorem words_word (hne : word ≠ []) (hword : ∀ c ∈ word, isSolid c = true) (hc : isBlank c = true)
    (s : Text) : words (word ++ c :: s) = word :: words s := by
  rw [words, firstWord_append hword, firstWord_blank hc, List.append_nil]
  exact if_neg fun h => hne (List.isEmpty_iff.mp h)

theorem words_solid (hne : word ≠ []) (hword : ∀ c ∈ word, isSolid c = true) : words word = [word] := by
  rw [← List.append_nil word, words, firstWord_append hword, firstWord, List.append_nil]
  exact if_neg fun h => hne (List.isEmpty_iff.mp h)

theorem words_append_of_blank (ht : ∀ c ∈ t, isBlank c = true) (s : Text) : words (s ++ t) = words s := by
  have hblanks : firstWord t = ([], []) := by
    induction t with
    | nil => rfl
    | cons c t ih =>
        obtain ⟨hc, ht⟩ := List.forall_mem_cons.mp ht
        rw [firstWord, ih ht]
        exact if_pos hc
  have hfirst : firstWord (s ++ t) = firstWord s := by
    induction s with
    | nil => exact hblanks
    | cons c s ih => rw [List.cons_append, firstWord, firstWord, ih]
  rw [words, words, hfirst]

theorem words_trimEnd (s : Text) : words (trimEnd isBlank s) = words s := by
  obtain ⟨tail, htail, hs⟩ := trimEnd_append_tail isBlank s
  rw [← words_append_of_blank htail, hs]

theorem words_intercalate {ws : List Text} (h : ∀ w ∈ ws, w ≠ [] ∧ ∀ c ∈ w, isSolid c = true) :
    words (List.intercalate [' '] ws) = ws := by
  induction ws with
  | nil => rfl
  | cons w ws ih =>
      obtain ⟨⟨hne, hw⟩, hws⟩ := List.forall_mem_cons.mp h
      cases ws with
      | nil => rw [List.intercalate_singleton, words_solid hne hw]
      | cons next ws =>
          rw [List.intercalate_cons_cons, List.append_assoc, List.singleton_append,
            words_word hne hw (by decide), ih hws]

/-! ## Word by word -/

/-- A word: there is something, and nothing of it is blank. -/
def IsWord (w : Text) : Prop :=
  w ≠ [] ∧ ∀ c ∈ w, isSolid c = true

/-- The text with each of its words changed by the function.  A word is as long as it can be, and blanks stay. -/
def mapWords (f : Text → Text) : Text → Text
  | [] => []
  | c :: s =>
    if isBlank c then c :: mapWords f s
    else f (c :: s.takeWhile isSolid) ++ mapWords f (s.dropWhile isSolid)
termination_by s => s.length
decreasing_by
  · simp
  · have := (List.dropWhile_suffix isSolid (l := s)).length_le
    simp only [List.length_cons]
    omega

/-- Induction along the words and the blanks between them. -/
theorem words_induction {motive : Text → Prop} (nil : motive [])
    (blank : ∀ c s, isBlank c = true → motive s → motive (c :: s))
    (word : ∀ w s, IsWord w → (∀ c ∈ s.head?, isBlank c = true) → motive s → motive (w ++ s))
    (s : Text) : motive s := by
  fun_induction mapWords id s with
  | case1 => exact nil
  | case2 c s hc ih => exact blank c s hc ih
  | case3 c s hc ih =>
      have hword : IsWord (c :: s.takeWhile isSolid) := by
        refine ⟨List.cons_ne_nil _ _, List.forall_mem_cons.mpr ⟨by simpa [isSolid] using hc, ?_⟩⟩
        exact fun d hd => List.mem_takeWhile_imp hd
      have hbehind : ∀ d ∈ (s.dropWhile isSolid).head?, isBlank d = true :=
        fun d hd => by simpa [isSolid] using head?_dropWhile isSolid s d hd
      have hwhole := word _ _ hword hbehind ih
      rw [List.cons_append, List.takeWhile_append_dropWhile] at hwhole
      exact hwhole

section MapWords

variable {f g : Text → Text} {w : Text}

theorem isSolid_eq_false_of_head (hs : ∀ c ∈ s.head?, isBlank c = true) : ∀ c ∈ s.head?, isSolid c = false := by
  intro c hc
  rw [isSolid, hs c hc]
  rfl

/-- A word that a blank or nothing follows is the first word. -/
theorem words_append (hw : IsWord w) (hs : ∀ c ∈ s.head?, isBlank c = true) : words (w ++ s) = w :: words s := by
  cases s with
  | nil =>
      rw [List.append_nil]
      exact words_solid hw.1 hw.2
  | cons c s => rw [words_word hw.1 hw.2 (hs c rfl), words_blank (hs c rfl)]

theorem mapWords_blank (hc : isBlank c = true) (s : Text) : mapWords f (c :: s) = c :: mapWords f s := by
  rw [mapWords, if_pos hc]

theorem mapWords_append (hw : IsWord w) (hs : ∀ c ∈ s.head?, isBlank c = true) :
    mapWords f (w ++ s) = f w ++ mapWords f s := by
  obtain ⟨hne, hsolid⟩ := hw
  obtain ⟨d, ds, rfl⟩ := List.exists_cons_of_ne_nil hne
  obtain ⟨hd, hds⟩ := List.forall_mem_cons.mp hsolid
  have hblank : ¬isBlank d = true := by simpa [isSolid] using hd
  have hstop := isSolid_eq_false_of_head hs
  rw [List.cons_append, mapWords, if_neg hblank, takeWhile_append_of_head hds hstop, dropWhile_append_of_head hds hstop]

/-- Nothing but blanks is put before the first word. -/
theorem head?_mapWords (hs : ∀ c ∈ s.head?, isBlank c = true) : ∀ c ∈ (mapWords f s).head?, isBlank c = true := by
  cases s with
  | nil =>
      rw [mapWords]
      exact hs
  | cons d s =>
      rw [mapWords_blank (hs d rfl)]
      exact hs

theorem mapWords_eq_self (hf : ∀ w, IsWord w → f w = w) (s : Text) : mapWords f s = s := by
  induction s using words_induction with
  | nil => rw [mapWords]
  | blank c s hc ih => rw [mapWords_blank hc, ih]
  | word w s hw hs ih => rw [mapWords_append hw hs, hf w hw, ih]

/-- Words that become words are found again between the same blanks. -/
theorem mapWords_mapWords (hg : ∀ w, IsWord w → IsWord (g w)) (s : Text) :
    mapWords f (mapWords g s) = mapWords (fun w => f (g w)) s := by
  induction s using words_induction with
  | nil => rw [mapWords, mapWords, mapWords]
  | blank c s hc ih => rw [mapWords_blank hc, mapWords_blank hc, mapWords_blank hc, ih]
  | word w s hw hs ih =>
      rw [mapWords_append hw hs, mapWords_append (hg w hw) (head?_mapWords hs), mapWords_append hw hs, ih]

theorem words_mapWords (hf : ∀ w, IsWord w → IsWord (f w)) (s : Text) :
    words (mapWords f s) = (words s).map f := by
  induction s using words_induction with
  | nil =>
      rw [mapWords]
      rfl
  | blank c s hc ih => rw [mapWords_blank hc, words_blank hc, words_blank hc, ih]
  | word w s hw hs ih =>
      rw [mapWords_append hw hs, words_append (hf w hw) (head?_mapWords hs), words_append hw hs, ih]
      rfl

theorem filter_isBlank_mapWords (hf : ∀ w, IsWord w → IsWord (f w)) (s : Text) :
    (mapWords f s).filter isBlank = s.filter isBlank := by
  have hword : ∀ w, IsWord w → w.filter isBlank = [] := by
    intro w hw
    refine List.filter_eq_nil_iff.mpr fun c hc => ?_
    simpa [isSolid] using hw.2 c hc
  induction s using words_induction with
  | nil => rw [mapWords]
  | blank c s hc ih => rw [mapWords_blank hc, List.filter_cons_of_pos hc, List.filter_cons_of_pos hc, ih]
  | word w s hw hs ih =>
      rw [mapWords_append hw hs, List.filter_append, List.filter_append, hword _ (hf w hw), hword w hw, ih]

end MapWords

/-! ## Words joined by spaces -/

theorem isWord_of_mem_words : ∀ w ∈ words s, IsWord w := by
  induction s using words_induction with
  | nil => exact fun w hw => absurd hw List.not_mem_nil
  | blank c s hc ih =>
      rw [words_blank hc]
      exact ih
  | word w s hw hs ih =>
      rw [words_append hw hs]
      exact List.forall_mem_cons.mpr ⟨hw, ih⟩

theorem IsWord.isBlank_eq_false (hw : IsWord word) (hc : c ∈ word) : isBlank c = false := by
  simpa [isSolid] using hw.2 c hc

section Joined

variable {ws : List Text} (h : ∀ w ∈ ws, IsWord w)
include h

theorem head?_intercalate : ∀ c ∈ (List.intercalate [' '] ws).head?, isBlank c = false := by
  intro c hc
  cases ws with
  | nil => exact absurd hc (by simp)
  | cons w ws =>
      have hw := h w List.mem_cons_self
      have hword : c ∈ w.head? := by
        cases ws with
        | nil => rwa [List.intercalate_singleton] at hc
        | cons next ws =>
            rwa [List.intercalate_cons_cons, List.append_assoc, List.head?_append_of_ne_nil w hw.1] at hc
      exact hw.isBlank_eq_false (List.mem_of_mem_head? hword)

theorem getLast?_intercalate : ∀ c ∈ (List.intercalate [' '] ws).getLast?, isBlank c = false := by
  induction ws with
  | nil => exact fun c hc => absurd hc (by simp)
  | cons w ws ih =>
      obtain ⟨hw, hws⟩ := List.forall_mem_cons.mp h
      cases ws with
      | nil =>
          rw [List.intercalate_singleton]
          exact fun c hc => hw.isBlank_eq_false (List.mem_of_getLast? hc)
      | cons next ws =>
          have hne : List.intercalate [' '] (next :: ws) ≠ [] := fun hnil =>
            (hws next List.mem_cons_self).1 (List.infix_nil.mp (hnil ▸ infix_intercalate List.mem_cons_self))
          rw [List.intercalate_cons_cons, List.getLast?_append_of_ne_nil _ hne]
          exact ih hws

theorem strip_intercalate : strip (List.intercalate [' '] ws) = List.intercalate [' '] ws :=
  trim_eq_self (head?_intercalate h) (getLast?_intercalate h)

/-- Of two neighbours in words joined by spaces one is a character of a word. -/
theorem isChain_intercalate :
    (List.intercalate [' '] ws).IsChain fun c d => isBlank c = false ∨ isBlank d = false := by
  induction ws with
  | nil => exact .nil
  | cons w ws ih =>
      obtain ⟨hw, hws⟩ := List.forall_mem_cons.mp h
      have hword : w.IsChain fun c d => isBlank c = false ∨ isBlank d = false :=
        (List.pairwise_of_forall_mem_list fun c hc d _ => .inl (hw.isBlank_eq_false hc)).isChain
      cases ws with
      | nil =>
          rw [List.intercalate_singleton]
          exact hword
      | cons next ws =>
          rw [List.intercalate_cons_cons, List.append_assoc]
          refine List.isChain_append.mpr ⟨hword, ?_, fun c hc d _ => ?_⟩
          · exact List.isChain_cons.mpr ⟨fun d hd => .inr (head?_intercalate hws d hd), ih hws⟩
          · exact .inl (hw.isBlank_eq_false (List.mem_of_getLast? hc))

end Joined

end AtMark.Text

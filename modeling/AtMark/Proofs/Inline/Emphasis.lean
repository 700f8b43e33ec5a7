import AtMark.Inline.Emphasis
import AtMark.Proofs.Html
import AtMark.Proofs.Search

/-!
# `Proofs.Inline.Emphasis`: what the emphasis pass changes

## What is proved

`Unmarked` says that a text has no marker with a text in front of the next one of its kind: each marker is
without a partner, or there are only blanks between the two.  Such a text is left as it is, and no other text
without a backslash is (`render_eq_self_iff`), since an element is always longer than what it was written as.
Escaping a text takes nothing away from its markers and adds none (`unmarked_escape_iff`).

An asterisk behind a backslash is a plain one between double markers, but closes the text between single ones
(`render_escapedMarker`): the search for the partner of a single marker is a search for an asterisk and does not look
at what stands before it, while around an escaped asterisk no double marker begins (`isPassed_escaped`).

## How

`render_induction` goes along the pass: past a character, past an escaped asterisk, and from a marker with a partner
into the text that the two enclose and on behind it.

## What is not

How a run of asterisks is divided into markers.  The pass prefers double ones from the left; for what it makes of any
division see `Proofs.Inline.Nesting`.
-/

namespace AtMark.Emphasis

open Search Text

/-- Nothing in the text is enclosed by markers. -/
inductive Unmarked : Text → Prop
  | nil : Unmarked []
  | other {c : Char} {s : Text} : c ≠ '*' → Unmarked s → Unmarked (c :: s)
  | double {s : Text} : enclosed? ['*', '*'] s = none → Unmarked s → Unmarked ('*' :: '*' :: s)
  | single {s : Text} : s.head? ≠ some '*' → enclosed? ['*'] s = none → Unmarked s →
      Unmarked ('*' :: s)

variable {c : Char} {s t inner rest marker : Text}

/-! ## One case for each kind of start -/

/-- Induction along the pass.  In front of a marker with a partner, it goes into the text that the two
enclose and on behind it. -/
theorem render_induction {motive : Text → Prop} (nil : motive [])
    (escaped : ∀ s, motive s → motive ('\\' :: '*' :: s))
    (strong : ∀ s inner rest, enclosed? ['*', '*'] s = some (inner, rest) → motive inner →
      motive rest → motive ('*' :: '*' :: s))
    (double : ∀ s, enclosed? ['*', '*'] s = none → motive s → motive ('*' :: '*' :: s))
    (emphasis : ∀ s inner rest, s.head? ≠ some '*' → enclosed? ['*'] s = some (inner, rest) →
      motive rest → motive ('*' :: s))
    (single : ∀ s, s.head? ≠ some '*' → enclosed? ['*'] s = none → motive s → motive ('*' :: s))
    (other : ∀ c s, c ≠ '*' → (c = '\\' → s.head? ≠ some '*') → motive s → motive (c :: s))
    (s : Text) : motive s := by
  have hhead : ∀ {s : Text}, (∀ cs, s = '*' :: cs → False) → s.head? ≠ some '*' := by
    intro s hs hstar
    obtain ⟨cs, rfl⟩ := List.head?_eq_some_iff.mp hstar
    exact hs cs rfl
  fun_induction render s with
  | case1 => exact nil
  | case2 s ih => exact escaped s ih
  | case3 s inner rest hfound ihinner ihrest => exact strong s inner rest hfound ihinner ihrest
  | case4 s hnone ih => exact double s hnone ih
  | case5 s hs inner rest hfound ih => exact emphasis s inner rest (hhead hs) hfound ih
  | case6 s hs hnone ih => exact single s (hhead hs) hnone ih
  | case7 c s hescape _ hc ih => exact other c s hc (fun hslash => hhead fun cs => hescape cs hslash) ih

theorem render_escaped (s : Text) : render ('\\' :: '*' :: s) = '*' :: render s := by
  rw [render]

theorem render_cons (hc : c ≠ '*') (hescape : c = '\\' → s.head? ≠ some '*') :
    render (c :: s) = c :: render s := by
  rw [render]
  · rintro cs rfl rfl
    exact hescape rfl rfl
  · rintro cs rfl
    exact absurd rfl hc
  · rintro rfl
    exact absurd rfl hc

theorem render_double (s : Text) : render ('*' :: '*' :: s) =
    match enclosed? ['*', '*'] s with
    | some (inner, rest) => strong (render inner) ++ render rest
    | none => '*' :: '*' :: render s := by
  rw [render]
  split
  · next h => rw [h]
  · next h => rw [h]

theorem render_single (hs : s.head? ≠ some '*') : render ('*' :: s) =
    match enclosed? ['*'] s with
    | some (inner, rest) => emphasis inner ++ render rest
    | none => '*' :: render s := by
  rw [render]
  · split
    · next h => rw [h]
    · next h => rw [h]
  · rintro cs rfl
    exact hs rfl

/-! ## Text before and text behind -/

theorem enclosed?_append (hmarker : ∀ m ∈ marker, m ∉ t) (s : Text) :
    enclosed? marker (s ++ t) = (enclosed? marker s).map fun found => (found.1, found.2 ++ t) := by
  rw [enclosed?, enclosed?, breakOn_append_of_not_mem hmarker]
  cases breakOn marker s with
  | none => rfl
  | some found =>
      simp only [Option.map_some, Option.filter_some]
      split
      · rfl
      · rfl

theorem render_append_left (hstar : '*' ∉ t) (hslash : '\\' ∉ t) (s : Text) :
    render (t ++ s) = t ++ render s := by
  induction t with
  | nil => rfl
  | cons c t ih =>
      rw [List.mem_cons, not_or] at hstar hslash
      rw [List.cons_append, render_cons (Ne.symm hstar.1) fun hc => absurd hc.symm hslash.1,
        ih hstar.2 hslash.2, List.cons_append]

theorem render_eq_self_of_not_mem (hstar : '*' ∉ s) : render s = s := by
  induction s with
  | nil => rw [render]
  | cons c s ih =>
      rw [List.mem_cons, not_or] at hstar
      rw [render_cons (Ne.symm hstar.1) fun _ hhead => hstar.2 (List.mem_of_mem_head? hhead),
        ih hstar.2]

theorem render_append_right (ht : '*' ∉ t) (s : Text) : render (s ++ t) = render s ++ t := by
  have hsingle : ∀ m ∈ ['*'], m ∉ t := by simpa using ht
  have hdouble : ∀ m ∈ ['*', '*'], m ∉ t := by simpa using ht
  have hhead : ∀ {cs : Text}, cs.head? ≠ some '*' → (cs ++ t).head? ≠ some '*' := by
    intro cs hcs hmore
    cases cs with
    | nil => exact ht (List.mem_of_mem_head? hmore)
    | cons c cs => exact hcs hmore
  induction s using render_induction with
  | nil =>
      rw [List.nil_append, render_eq_self_of_not_mem ht, render]
      rfl
  | escaped s ih => rw [List.cons_append, List.cons_append, render_escaped, render_escaped, ih]; rfl
  | strong s inner rest hfound _ ih =>
      rw [List.cons_append, List.cons_append, render_double, render_double, enclosed?_append hdouble, hfound]
      simp only [Option.map_some, ih, List.append_assoc]
  | double s hnone ih =>
      rw [List.cons_append, List.cons_append, render_double, render_double, enclosed?_append hdouble, hnone]
      simp only [Option.map_none, ih, List.cons_append]
  | emphasis s inner rest hs hfound ih =>
      rw [List.cons_append, render_single hs, render_single (hhead hs), enclosed?_append hsingle, hfound]
      simp only [Option.map_some, ih, List.append_assoc]
  | single s hs hnone ih =>
      rw [List.cons_append, render_single hs, render_single (hhead hs), enclosed?_append hsingle, hnone]
      simp only [Option.map_none, ih, List.cons_append]
  | other c s hc hescape ih =>
      rw [List.cons_append, render_cons hc hescape, render_cons hc fun hslash => hhead (hescape hslash), ih,
        List.cons_append]

/-! ## When the text stays -/

theorem eq_of_enclosed? (h : enclosed? marker s = some (inner, rest)) : s = inner ++ marker ++ rest :=
  eq_of_breakOn (Option.filter_eq_some_iff.mp h).1

theorem not_mem_of_enclosed? (h : enclosed? marker s = some (inner, rest)) (hc : c ∉ s) :
    c ∉ inner ∧ c ∉ rest := by
  rw [eq_of_enclosed? h, List.mem_append, List.mem_append, not_or, not_or] at hc
  exact ⟨hc.1.1, hc.2⟩

theorem length_strong (inner : Text) : (strong inner).length = 8 + inner.length + 9 := by
  unfold strong
  rw [List.length_append, List.length_append]
  rfl

theorem length_emphasis (inner : Text) : (emphasis inner).length = 4 + inner.length + 5 := by
  unfold emphasis
  rw [List.length_append, List.length_append]
  rfl

theorem length_le_render (hslash : '\\' ∉ s) : s.length ≤ (render s).length := by
  induction s using render_induction with
  | nil => exact Nat.zero_le _
  | escaped s ih => exact absurd List.mem_cons_self hslash
  | strong s inner rest hfound ihinner ihrest =>
      rw [List.mem_cons, List.mem_cons, not_or, not_or] at hslash
      obtain ⟨hinner, hrest⟩ := not_mem_of_enclosed? hfound hslash.2.2
      have hinner := ihinner hinner
      have hrest := ihrest hrest
      have hlength := length_of_enclosed? hfound
      rw [render_double, hfound]
      simp only [List.length_append, length_strong, List.length_cons, List.length_nil] at hlength ⊢
      omega
  | double s hnone ih =>
      rw [List.mem_cons, List.mem_cons, not_or, not_or] at hslash
      rw [render_double, hnone]
      exact Nat.succ_le_succ (Nat.succ_le_succ (ih hslash.2.2))
  | emphasis s inner rest hs hfound ih =>
      rw [List.mem_cons, not_or] at hslash
      have hrest := ih (not_mem_of_enclosed? hfound hslash.2).2
      have hlength := length_of_enclosed? hfound
      rw [render_single hs, hfound]
      simp only [List.length_append, length_emphasis, List.length_cons, List.length_nil] at hlength ⊢
      omega
  | single s hs hnone ih =>
      rw [List.mem_cons, not_or] at hslash
      rw [render_single hs, hnone]
      exact Nat.succ_le_succ (ih hslash.2)
  | other c s hc hescape ih =>
      rw [List.mem_cons, not_or] at hslash
      rw [render_cons hc hescape]
      exact Nat.succ_le_succ (ih hslash.2)

theorem Unmarked.render_eq_self (h : Unmarked s) (hslash : '\\' ∉ s) : render s = s := by
  induction h with
  | nil => rw [render]
  | other hc _ ih =>
      rw [List.mem_cons, not_or] at hslash
      rw [render_cons hc fun heq => absurd heq.symm hslash.1, ih hslash.2]
  | double hnone _ ih =>
      rw [List.mem_cons, List.mem_cons, not_or, not_or] at hslash
      rw [render_double, hnone]
      simp only [ih hslash.2.2]
  | single hs hnone _ ih =>
      rw [List.mem_cons, not_or] at hslash
      rw [render_single hs, hnone]
      simp only [ih hslash.2]

theorem unmarked_of_render_eq_self (hslash : '\\' ∉ s) (h : render s = s) : Unmarked s := by
  induction s using render_induction with
  | nil => exact .nil
  | escaped s ih => exact absurd List.mem_cons_self hslash
  | strong s inner rest hfound _ _ =>
      -- The element is longer than its source, and what stands behind does not make up for it.
      rw [List.mem_cons, List.mem_cons, not_or, not_or] at hslash
      obtain ⟨hinner, hrest⟩ := not_mem_of_enclosed? hfound hslash.2.2
      have hinner := length_le_render hinner
      have hrest := length_le_render hrest
      have hlength := length_of_enclosed? hfound
      rw [render_double, hfound] at h
      have hsame := congrArg List.length h
      simp only [List.length_append, length_strong, List.length_cons, List.length_nil] at hlength hsame
      omega
  | double s hnone ih =>
      rw [List.mem_cons, List.mem_cons, not_or, not_or] at hslash
      rw [render_double, hnone] at h
      exact .double hnone (ih hslash.2.2 (List.cons.inj (List.cons.inj h).2).2)
  | emphasis s inner rest hs hfound _ =>
      rw [List.mem_cons, not_or] at hslash
      have hrest := length_le_render (not_mem_of_enclosed? hfound hslash.2).2
      have hlength := length_of_enclosed? hfound
      rw [render_single hs, hfound] at h
      have hsame := congrArg List.length h
      simp only [List.length_append, length_emphasis, List.length_cons, List.length_nil] at hlength hsame
      omega
  | single s hs hnone ih =>
      rw [List.mem_cons, not_or] at hslash
      rw [render_single hs, hnone] at h
      exact .single hs hnone (ih hslash.2 (List.cons.inj h).2)
  | other c s hc hescape ih =>
      rw [List.mem_cons, not_or] at hslash
      rw [render_cons hc hescape] at h
      exact .other hc (ih hslash.2 (List.cons.inj h).2)

/-- Of the texts without a backslash, the pass leaves those as they are in which nothing is enclosed. -/
theorem render_eq_self_iff (hslash : '\\' ∉ s) : render s = s ↔ Unmarked s :=
  ⟨unmarked_of_render_eq_self hslash, fun h => h.render_eq_self hslash⟩

/-! ## Escaped text -/

section Escape

open Html

theorem not_mem_escapeChar (hc : c ≠ '*') : '*' ∉ escapeChar c := by
  intro hstar
  rcases escapeChar_cases c with ⟨-, hsame⟩ | ⟨-, -, hchars⟩
  · rw [hsame] at hstar
    exact hc (List.mem_singleton.mp hstar).symm
  · exact absurd (hchars _ hstar) (by decide)

theorem skip?_escape (hmarker : ∀ m ∈ marker, m = '*') (s : Text) :
    skip? marker (escape s) = (skip? marker s).map escape := by
  induction marker generalizing s with
  | nil => simp only [skip?, Option.map_some]
  | cons m marker ih =>
      obtain ⟨rfl, hmore⟩ := List.forall_mem_cons.mp hmarker
      cases s with
      | nil => rfl
      | cons c s =>
          by_cases hc : c = '*'
          · subst hc
            exact ih hmore s
          · -- What stands for the character does not begin with an asterisk either.
            have hstar := not_mem_escapeChar hc
            rw [skip?, if_neg (Ne.symm hc), escape, List.flatMap_cons]
            cases h : escapeChar c with
            | nil => exact absurd h (escapeChar_ne_nil c)
            | cons d ds =>
                rw [h, List.mem_cons, not_or] at hstar
                exact if_neg hstar.1

theorem breakOn_escape {stars : Text} (hstars : ∀ m ∈ stars, m = '*') (s : Text) :
    breakOn ('*' :: stars) (escape s) =
      (breakOn ('*' :: stars) s).map fun found => (escape found.1, escape found.2) := by
  have hskip := skip?_escape (List.forall_mem_cons.mpr ⟨rfl, hstars⟩)
  induction s with
  | nil => rfl
  | cons c s ih =>
      by_cases hc : c = '*'
      · subst hc
        have hhere : skip? ('*' :: stars) ('*' :: escape s) = _ := hskip ('*' :: s)
        show breakOn ('*' :: stars) ('*' :: escape s) = _
        rw [breakOn, breakOn, hhere]
        cases skip? ('*' :: stars) ('*' :: s) with
        | some rest => rfl
        | none =>
            simp only [Option.map_none, ih, Option.map_map]
            rfl
      · have hleft : IsPassed ('*' :: stars) (escapeChar c) := .of_not_mem (not_mem_escapeChar hc)
        have hright : IsPassed ('*' :: stars) [c] :=
          .of_not_mem fun h => hc (List.mem_singleton.mp h).symm
        show breakOn ('*' :: stars) (escapeChar c ++ escape s) = (breakOn _ ([c] ++ s)).map _
        rw [hleft, hright, ih, Option.map_map, Option.map_map]
        rfl

theorem allBlank_escape (s : Text) : allBlank (escape s) = allBlank s := by
  rw [allBlank, allBlank, escape, List.all_flatMap]
  congr 1
  funext c
  rcases escapeChar_cases c with ⟨-, hsame⟩ | ⟨hspecial, -, hchars⟩
  · rw [hsame, List.all_cons, List.all_nil, Bool.and_true]
  · -- Neither the special characters nor those of entities are blank.
    have hnot : ∀ d ∈ special ++ entityChars, isBlank d = false := by decide
    obtain ⟨d, ds, hd⟩ := List.exists_cons_of_ne_nil (escapeChar_ne_nil c)
    rw [hnot c (List.mem_append_left _ hspecial), hd, List.all_cons,
      hnot d (List.mem_append_right _ (hchars d (hd ▸ List.mem_cons_self))), Bool.false_and]

theorem enclosed?_escape (stars : Text) (hstars : ∀ m ∈ stars, m = '*') (s : Text) :
    enclosed? ('*' :: stars) (escape s) =
      (enclosed? ('*' :: stars) s).map fun found => (escape found.1, escape found.2) := by
  rw [enclosed?, enclosed?, breakOn_escape hstars]
  cases breakOn ('*' :: stars) s with
  | none => rfl
  | some found =>
      simp only [Option.map_some, Option.filter_some, allBlank_escape]
      split
      · rfl
      · rfl

theorem head?_escape (s : Text) : (escape s).head? = some '*' ↔ s.head? = some '*' := by
  cases s with
  | nil => exact Iff.rfl
  | cons c s =>
      by_cases hc : c = '*'
      · subst hc
        exact Iff.rfl
      · have hstar := not_mem_escapeChar hc
        obtain ⟨d, ds, hd⟩ := List.exists_cons_of_ne_nil (escapeChar_ne_nil c)
        rw [hd, List.mem_cons, not_or] at hstar
        rw [escape, List.flatMap_cons, hd]
        simp only [List.cons_append, List.head?_cons, Option.some.injEq]
        exact ⟨fun h => absurd h.symm hstar.1, fun h => absurd h hc⟩

theorem Unmarked.tail (h : Unmarked (c :: s)) (hc : c ≠ '*') : Unmarked s := by
  cases h with
  | other _ h => exact h
  | double _ _ => exact absurd rfl hc
  | single _ _ _ => exact absurd rfl hc

theorem unmarked_append_iff (ht : '*' ∉ t) : Unmarked (t ++ s) ↔ Unmarked s := by
  induction t with
  | nil => exact Iff.rfl
  | cons c t ih =>
      rw [List.mem_cons, not_or] at ht
      rw [← ih ht.2]
      exact ⟨fun h => h.tail (Ne.symm ht.1), .other (Ne.symm ht.1)⟩

theorem unmarked_double_iff : Unmarked ('*' :: '*' :: s) ↔ enclosed? ['*', '*'] s = none ∧ Unmarked s := by
  constructor
  · intro h
    cases h with
    | other hc _ => exact absurd rfl hc
    | double hnone h => exact ⟨hnone, h⟩
    | single hs _ _ => exact absurd rfl hs
  · exact fun ⟨hnone, h⟩ => .double hnone h

theorem unmarked_single_iff (hs : s.head? ≠ some '*') :
    Unmarked ('*' :: s) ↔ enclosed? ['*'] s = none ∧ Unmarked s := by
  constructor
  · intro h
    cases h with
    | other hc _ => exact absurd rfl hc
    | double _ _ => exact absurd rfl hs
    | single _ hnone h => exact ⟨hnone, h⟩
  · exact fun ⟨hnone, h⟩ => .single hs hnone h

theorem unmarked_escape_iff (hslash : '\\' ∉ s) : Unmarked (escape s) ↔ Unmarked s := by
  have hdouble := enclosed?_escape ['*'] (by decide)
  have hsingle := enclosed?_escape [] (by decide)
  have hhead : ∀ {s : Text}, s.head? ≠ some '*' → (escape s).head? ≠ some '*' :=
    fun hs h => hs ((head?_escape _).mp h)
  induction s using render_induction with
  | nil => exact Iff.rfl
  | escaped s _ => exact absurd List.mem_cons_self hslash
  | strong s inner rest hfound _ _ =>
      show Unmarked ('*' :: '*' :: escape s) ↔ _
      rw [unmarked_double_iff, unmarked_double_iff, hdouble, hfound]
      simp
  | double s hnone ih =>
      rw [List.mem_cons, List.mem_cons, not_or, not_or] at hslash
      have hmore : Unmarked (escape s) ↔ Unmarked s := ih hslash.2.2
      show Unmarked ('*' :: '*' :: escape s) ↔ _
      rw [unmarked_double_iff, unmarked_double_iff, hdouble, hnone, hmore]
      simp
  | emphasis s inner rest hs hfound _ =>
      show Unmarked ('*' :: escape s) ↔ _
      rw [unmarked_single_iff (hhead hs), unmarked_single_iff hs, hsingle, hfound]
      simp
  | single s hs hnone ih =>
      rw [List.mem_cons, not_or] at hslash
      have hmore : Unmarked (escape s) ↔ Unmarked s := ih hslash.2
      show Unmarked ('*' :: escape s) ↔ _
      rw [unmarked_single_iff (hhead hs), unmarked_single_iff hs, hsingle, hnone, hmore]
      simp
  | other c s hc _ ih =>
      rw [List.mem_cons, not_or] at hslash
      have hmore : Unmarked (escape s) ↔ Unmarked s := ih hslash.2
      show Unmarked (escapeChar c ++ escape s) ↔ Unmarked ([c] ++ s)
      rw [unmarked_append_iff (not_mem_escapeChar hc), hmore,
        unmarked_append_iff fun h => hc (List.mem_singleton.mp h).symm]

end Escape

/-! ## Escaped asterisks -/

section EscapedMarker

variable {u v : Text}

theorem enclosed?_passed {m : Char} {ms : Text} (hpassed : IsPassed (m :: ms) u) (hblank : allBlank u = false)
    (s : Text) : enclosed? (m :: ms) (u ++ (m :: ms ++ s)) = some (u, s) := by
  rw [enclosed?, hpassed.breakOn_eq, Option.filter_some, hblank]
  rfl

/-- The partner of a single marker is the next asterisk, also if that one has a backslash in front of it. -/
theorem render_enclosed_single (hstar : '*' ∉ u) (hblank : allBlank u = false) (s : Text) :
    render ('*' :: (u ++ '*' :: s)) = emphasis u ++ render s := by
  have hhead : (u ++ '*' :: s).head? ≠ some '*' := by
    cases u with
    | nil => cases hblank
    | cons c u =>
        rintro ⟨⟩
        exact hstar List.mem_cons_self
  have hfound : enclosed? ['*'] (u ++ '*' :: s) = some (u, s) :=
    enclosed?_passed (.of_not_mem hstar) hblank s
  rw [render_single hhead, hfound]

/-- The partner of a double marker is the next one behind text in which none begins. -/
theorem render_enclosed_double (hpassed : IsPassed ['*', '*'] u) (hblank : allBlank u = false) (s : Text) :
    render ('*' :: '*' :: (u ++ '*' :: '*' :: s)) = strong (render u) ++ render s := by
  have hfound : enclosed? ['*', '*'] (u ++ '*' :: '*' :: s) = some (u, s) := enclosed?_passed hpassed hblank s
  rw [render_double, hfound]

theorem allBlank_eq_false_of_mem (hc : c ∈ s) (hsolid : isBlank c = false) : allBlank s = false :=
  List.all_eq_false.mpr ⟨c, hc, Bool.eq_false_iff.mp hsolid⟩

/-- The characters that the last pass reads. -/
def markerSigns : Text := "*\\"

theorem isPassed_escaped (hu : '*' ∉ u) (hv : '*' ∉ v) (hne : v ≠ []) :
    IsPassed ['*', '*'] (u ++ '\\' :: '*' :: v) := by
  obtain ⟨d, w, rfl⟩ := List.exists_cons_of_ne_nil hne
  have hd : '*' ≠ d := fun heq => hv (heq ▸ List.mem_cons_self)
  have hstar : ∀ t, skip? ['*', '*'] ('*' :: (d :: w ++ t)) = none := fun t => if_neg hd
  have hbehind : IsPassed ['*', '*'] ('\\' :: '*' :: d :: w) := .cons (fun _ => rfl) (.cons hstar (.of_not_mem hv))
  exact (IsPassed.of_not_mem hu).append hbehind

/-- Between double markers an escaped asterisk is a plain one. -/
theorem render_escaped_strong (hu : ∀ c ∈ markerSigns, c ∉ u) (hv : '*' ∉ v) (hne : v ≠ []) :
    render ("**" ++ u ++ "\\*" ++ v ++ "**") = strong (u ++ "*" ++ v) := by
  have hsource : "**" ++ u ++ "\\*" ++ v ++ "**" =
      '*' :: '*' :: ((u ++ '\\' :: '*' :: v) ++ '*' :: '*' :: []) := by
    show ['*', '*'] ++ u ++ ['\\', '*'] ++ v ++ ['*', '*'] = _
    simp only [List.append_assoc, List.cons_append, List.nil_append]
  have hpassed := isPassed_escaped (hu '*' (by decide)) hv hne
  have hblank : allBlank (u ++ '\\' :: '*' :: v) = false :=
    allBlank_eq_false_of_mem (c := '\\') (by simp) (by decide)
  have hinner : render (u ++ '\\' :: '*' :: v) = u ++ '*' :: v := by
    rw [render_append_left (hu _ (by decide)) (hu _ (by decide)), render_escaped, render_eq_self_of_not_mem hv]
  have hnil : render [] = [] := render_eq_self_of_not_mem List.not_mem_nil
  rw [hsource, render_enclosed_double hpassed hblank, hinner, hnil, List.append_nil]
  exact congrArg strong (List.append_assoc u ['*'] v).symm

/-- Between single markers it is not: the first of them takes it for its partner and the backslash for text, so the
second one has no partner. -/
theorem render_escaped_emphasis (hu : '*' ∉ u) (hv : ∀ c ∈ markerSigns, c ∉ v) :
    render ("*" ++ u ++ "\\*" ++ v ++ "*") = emphasis (u ++ "\\") ++ v ++ "*" := by
  have hsource : "*" ++ u ++ "\\*" ++ v ++ "*" = '*' :: ((u ++ ['\\']) ++ '*' :: (v ++ ['*'])) := by
    show ['*'] ++ u ++ ['\\', '*'] ++ v ++ ['*'] = _
    simp only [List.append_assoc, List.cons_append, List.nil_append]
  have hinner : '*' ∉ u ++ ['\\'] := List.not_mem_append hu (by decide)
  have hblank : allBlank (u ++ ['\\']) = false := allBlank_eq_false_of_mem (c := '\\') (by simp) (by decide)
  have hend : render ['*'] = ['*'] := by
    rw [render_single (by decide)]
    exact congrArg ('*' :: ·) (render_eq_self_of_not_mem List.not_mem_nil)
  rw [hsource, render_enclosed_single hinner hblank, render_append_left (hv _ (by decide)) (hv _ (by decide)), hend]
  exact (List.append_assoc ..).symm

/-- An escaped asterisk is a plain one between double markers and closes the text between single ones. -/
theorem render_escapedMarker (hu : ∀ c ∈ markerSigns, c ∉ u) (hv : ∀ c ∈ markerSigns, c ∉ v) (hne : v ≠ []) :
    render ("**" ++ u ++ "\\*" ++ v ++ "**") = strong (u ++ "*" ++ v) ∧
      render ("*" ++ u ++ "\\*" ++ v ++ "*") = emphasis (u ++ "\\") ++ v ++ "*" ∧
      render ("*" ++ u ++ "\\*" ++ v ++ "*") ≠ emphasis (u ++ "*" ++ v) := by
  have hstrong := render_escaped_strong hu (hv _ (by decide)) hne
  have hemphasis := render_escaped_emphasis (hu _ (by decide)) hv
  refine ⟨hstrong, hemphasis, ?_⟩
  -- The elements differ behind the text in front of the escaped asterisk.
  intro heq
  rw [hemphasis] at heq
  unfold emphasis at heq
  simp only [List.append_assoc, List.append_cancel_left_eq] at heq
  have hhead : some '\\' = some '*' := congrArg List.head? heq
  exact absurd hhead (by decide)

/-- Blanks beside the escaped asterisk change nothing. -/
theorem render_escapedMarker_blanks :
    (∀ c ∈ markerSigns, c ∉ "two ".toList) ∧ (∀ c ∈ markerSigns, c ∉ " three".toList) ∧ " three".toList ≠ [] ∧
      render "**two \\* three**" = "<strong>two * three</strong>" ∧
      render "*two \\* three*" = "<em>two \\</em> three*" := by
  have hu : ∀ c ∈ markerSigns, c ∉ "two ".toList := by decide
  have hv : ∀ c ∈ markerSigns, c ∉ " three".toList := by decide
  have hne : " three".toList ≠ [] := by decide
  obtain ⟨hstrong, hemphasis, -⟩ := render_escapedMarker hu hv hne
  exact ⟨hu, hv, hne, hstrong, hemphasis⟩

/-- The smallest text with an escaped asterisk between single markers. -/
theorem escaped_marker_closes :
    (∀ c ∈ markerSigns, c ∉ "a".toList) ∧ (∀ c ∈ markerSigns, c ∉ "b".toList) ∧
      allBlank "a" = false ∧ allBlank "b" = false ∧
      render "*a\\*b*" = "<em>a\\</em>b*" ∧ render "*a\\*b*" ≠ emphasis ("a" ++ "*" ++ "b") := by
  decide +kernel

end EscapedMarker

end AtMark.Emphasis

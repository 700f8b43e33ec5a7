import AtMark.Inline.CodeRegion
import AtMark.Inline.Link
import AtMark.Proofs.Html
import AtMark.Proofs.Search
import AtMark.Proofs.Text.Run

/-!
# `Proofs.Inline.Link`: what the link pass reads and what it changes

## What is proved

The pass is the only function that keeps to three laws (`Rewrites`): a text without an opening bracket stays; a bracket
without a label and a target stays, and the rest is gone on with; a label with a target is a link if the target is an
address, and otherwise stays (`rewrites_iff`).

Each link costs the text an opening bracket and nothing else does (`count_render`), so the pass leaves a text as it is
exactly if no target that it reads is an address (`render_eq_self_iff`).

## How

`Reads s pairs` says how the pass goes over a text: from one opening bracket to the next, and which labels it
finds with a target behind them.  It has a clause for each way this can go on, every text is read in one of
these ways (`exists_reads`), and `render` has an equation for each clause.  All that is known of the pass
follows by induction on it.

## What is not

Whether an address is one that can be followed.  The pass asks for a letter and one of three signs, and nothing more
(`isAddress_iff`).
-/

namespace AtMark

theorem CodeSpan.closeTag_eq : closeTag = ['<', '/', 'c', 'o', 'd', 'e', '>'] := rfl

namespace Link

open Search Text

/-- The pass reads a text and finds these labels with their targets, in order. -/
inductive Reads : Text → List (Text × Text) → Prop
  | unopened {s : Text} : '[' ∉ s → Reads s []
  | unclosed {before inside : Text} : '[' ∉ before → ']' ∉ inside →
      Reads (before ++ '[' :: inside) []
  | untargeted {before label behind : Text} {pairs : List (Text × Text)} :
      '[' ∉ before → ']' ∉ label → (behind.head? = some '(' → ')' ∉ behind) → Reads behind pairs →
      Reads (before ++ '[' :: (label ++ ']' :: behind)) pairs
  | targeted {before label target rest : Text} {pairs : List (Text × Text)} :
      '[' ∉ before → ']' ∉ label → ')' ∉ target → Reads rest pairs →
      Reads (before ++ '[' :: (label ++ ']' :: '(' :: (target ++ ')' :: rest))) ((label, target) :: pairs)

variable {s before inside label behind target rest : Text} {pairs : List (Text × Text)}

theorem target?_eq_none_iff : target? s = none ↔ (s.head? = some '(' → ')' ∉ s) := by
  unfold target?
  split
  · next cs =>
    rw [breakOn_singleton_eq_none_iff]
    simp
  · next hs =>
    refine ⟨fun _ hhead => ?_, fun _ => rfl⟩
    obtain ⟨cs, rfl⟩ := List.head?_eq_some_iff.mp hhead
    exact absurd rfl (hs cs)

/-- Every text is read in one of the ways. -/
theorem exists_reads (s : Text) : ∃ pairs, Reads s pairs := by
  fun_induction render s with
  | case1 s hopen => exact ⟨[], .unopened (breakOn_singleton_eq_none_iff.mp hopen)⟩
  | case2 s before inside hopen hclose =>
      rw [eq_of_breakOn hopen, List.append_assoc]
      exact ⟨[], .unclosed (not_mem_of_breakOn_singleton hopen) (breakOn_singleton_eq_none_iff.mp hclose)⟩
  | case3 s before inside hopen label behind hclose htarget ih =>
      obtain ⟨pairs, hpairs⟩ := ih
      rw [eq_of_breakOn hopen, eq_of_breakOn hclose, List.append_assoc, List.append_assoc]
      exact ⟨pairs, .untargeted (not_mem_of_breakOn_singleton hopen) (not_mem_of_breakOn_singleton hclose)
        (target?_eq_none_iff.mp htarget) hpairs⟩
  | case4 s before inside hopen label behind hclose target rest htarget ih =>
      obtain ⟨pairs, hpairs⟩ := ih
      unfold target? at htarget
      split at htarget
      · next cs =>
        rw [eq_of_breakOn hopen, eq_of_breakOn hclose, eq_of_breakOn htarget, List.append_assoc,
          List.append_assoc, List.append_assoc]
        exact ⟨(label, target) :: pairs, .targeted (not_mem_of_breakOn_singleton hopen)
          (not_mem_of_breakOn_singleton hclose) (not_mem_of_breakOn_singleton htarget) hpairs⟩
      · cases htarget

/-! ## One equation for each clause -/

theorem render_eq (s : Text) : render s =
    match breakOn ['['] s with
    | none => s
    | some (before, inside) =>
      match breakOn [']'] inside with
      | none => s
      | some (label, behind) =>
        match target? behind with
        | none => before ++ '[' :: (label ++ ']' :: render behind)
        | some (target, rest) => before ++ bracketed label target ++ render rest := by
  fun_cases render s with
  | case1 hopen => rw [hopen]
  | case2 before inside hopen hclose => simp only [hopen, hclose]
  | case3 before inside hopen label behind hclose htarget => simp [hopen, hclose, htarget]
  | case4 before inside hopen label behind hclose target rest htarget =>
      simp only [hopen, hclose, htarget]

theorem render_unopened (h : '[' ∉ s) : render s = s := by
  rw [render_eq, breakOn_singleton_eq_none_iff.mpr h]

theorem render_unclosed (hopen : '[' ∉ before) (hclose : ']' ∉ inside) :
    render (before ++ '[' :: inside) = before ++ '[' :: inside := by
  rw [render_eq, breakOn_singleton hopen]
  simp only [breakOn_singleton_eq_none_iff.mpr hclose]

theorem render_untargeted (hopen : '[' ∉ before) (hclose : ']' ∉ label)
    (htarget : behind.head? = some '(' → ')' ∉ behind) :
    render (before ++ '[' :: (label ++ ']' :: behind)) =
      before ++ '[' :: (label ++ ']' :: render behind) := by
  rw [render_eq, breakOn_singleton hopen]
  simp only [breakOn_singleton hclose, target?_eq_none_iff.mpr htarget]

theorem render_targeted (hopen : '[' ∉ before) (hclose : ']' ∉ label) (htarget : ')' ∉ target) :
    render (before ++ '[' :: (label ++ ']' :: '(' :: (target ++ ')' :: rest))) =
      before ++ bracketed label target ++ render rest := by
  rw [render_eq, breakOn_singleton hopen]
  simp only [breakOn_singleton hclose, target?, breakOn_singleton htarget]

/-! ## Text before and text behind -/

theorem render_append_left {t : Text} (ht : '[' ∉ t) (s : Text) : render (t ++ s) = t ++ render s := by
  have hmore : ∀ {before : Text}, '[' ∉ before → '[' ∉ t ++ before :=
    fun hbefore => List.not_mem_append ht hbefore
  obtain ⟨pairs, hreads⟩ := exists_reads s
  cases hreads with
  | unopened hopen => rw [render_unopened hopen, render_unopened (hmore hopen)]
  | unclosed hopen hclose =>
      rw [render_unclosed hopen hclose, ← List.append_assoc, render_unclosed (hmore hopen) hclose]
  | untargeted hopen hclose htarget _ =>
      rw [render_untargeted hopen hclose htarget, ← List.append_assoc,
        render_untargeted (hmore hopen) hclose htarget, List.append_assoc]
  | targeted hopen hclose htarget _ =>
      rw [render_targeted hopen hclose htarget, ← List.append_assoc,
        render_targeted (hmore hopen) hclose htarget, List.append_assoc, List.append_assoc,
        List.append_assoc]

/-- The characters that the pass looks for. -/
def signs : Text := "[]()"

theorem render_append_right {t : Text} (ht : ∀ c ∈ signs, c ∉ t) (s : Text) :
    render (s ++ t) = render s ++ t := by
  have hopen : '[' ∉ t := ht _ (by decide)
  have hclose : ']' ∉ t := ht _ (by decide)
  have hend : ')' ∉ t := ht _ (by decide)
  obtain ⟨pairs, hreads⟩ := exists_reads s
  induction hreads with
  | unopened hs => rw [render_unopened hs, render_unopened (List.not_mem_append hs hopen)]
  | unclosed hbefore hinside =>
      rw [render_unclosed hbefore hinside, List.append_assoc, List.cons_append,
        render_unclosed hbefore (List.not_mem_append hinside hclose)]
  | @untargeted before label behind pairs hbefore hlabel htarget _ ih =>
      have hmore : (behind ++ t).head? = some '(' → ')' ∉ behind ++ t := by
        intro hhead
        refine List.not_mem_append ?_ hend
        cases behind with
        | nil => exact List.not_mem_nil
        | cons c behind => exact htarget hhead
      rw [render_untargeted hbefore hlabel htarget, List.append_assoc, List.cons_append,
        List.append_assoc, List.cons_append, render_untargeted hbefore hlabel hmore, ih,
        List.append_assoc, List.cons_append, List.append_assoc, List.cons_append]
  | @targeted before label target rest pairs hbefore hlabel htarget _ ih =>
      rw [render_targeted hbefore hlabel htarget, List.append_assoc (before ++ _), ← ih,
        ← render_targeted hbefore hlabel htarget]
      simp only [List.append_assoc, List.cons_append]

/-! ## When the text stays -/

theorem count_element (label target : Text) :
    (element label target).count '[' = label.count '[' + target.count '[' := by
  have htarget := Html.count_escape (d := '[') (by decide) (by decide) target
  have hconst : ∀ t ∈ ["<a".toList, " ".toList, "href".toList, "=\"".toList, "\"".toList, ">".toList,
      "</a>".toList], t.count '[' = 0 := by decide
  simp only [List.forall_mem_cons] at hconst
  unfold element Html.attr
  simp only [List.count_append, htarget, hconst]
  omega

theorem bracketed_of_not_address (h : isAddress (strip target) = false) (label : Text) :
    bracketed label target = '[' :: (label ++ ']' :: '(' :: (target ++ [')'])) := by
  rw [bracketed, if_neg (Bool.eq_false_iff.mp h)]
  simp

/-- A link has one bracket less than the text that it was written as. -/
theorem count_bracketed (h : isAddress (strip target) = true) (label : Text) :
    (bracketed label target).count '[' = label.count '[' + target.count '[' := by
  rw [bracketed, if_pos h, count_element]
  exact congrArg (_ + ·) (count_trim (by decide) target)

namespace Reads

/-- Each address costs an opening bracket, and nothing else does. -/
theorem count_render (h : Reads s pairs) :
    (render s).count '[' + (pairs.filter fun p => isAddress (strip p.2)).length = s.count '[' := by
  induction h with
  | unopened hs => rw [render_unopened hs]; rfl
  | unclosed hbefore hinside => rw [render_unclosed hbefore hinside]; rfl
  | untargeted hbefore hlabel htarget _ ih =>
      rw [render_untargeted hbefore hlabel htarget]
      simp only [List.count_append, List.count_cons]
      omega
  | @targeted before label target rest pairs hbefore hlabel htarget _ ih =>
      rw [render_targeted hbefore hlabel htarget]
      cases haddress : isAddress (strip target) with
      | true =>
          have hlink : ((label, target) :: pairs).filter (fun p => isAddress (strip p.2)) =
              (label, target) :: pairs.filter fun p => isAddress (strip p.2) :=
            List.filter_cons_of_pos haddress
          rw [hlink, List.length_cons]
          simp [List.count_append, count_bracketed haddress]
          omega
      | false =>
          have hnone : ((label, target) :: pairs).filter (fun p => isAddress (strip p.2)) =
              pairs.filter fun p => isAddress (strip p.2) :=
            List.filter_cons_of_neg (Bool.eq_false_iff.mp haddress)
          rw [hnone, bracketed_of_not_address haddress]
          simp only [List.count_append, List.count_cons, List.count_nil]
          omega

theorem render_eq_self_iff (h : Reads s pairs) :
    render s = s ↔ ∀ p ∈ pairs, isAddress (strip p.2) = false := by
  constructor
  · intro heq p hp
    have hcount := h.count_render
    rw [heq, Nat.add_eq_left, List.length_eq_zero_iff, List.filter_eq_nil_iff] at hcount
    exact Bool.eq_false_iff.mpr (hcount p hp)
  · intro hnone
    induction h with
    | unopened hs => exact render_unopened hs
    | unclosed hbefore hinside => exact render_unclosed hbefore hinside
    | untargeted hbefore hlabel htarget _ ih =>
        rw [render_untargeted hbefore hlabel htarget, ih hnone]
    | targeted hbefore hlabel htarget _ ih =>
        obtain ⟨hhead, hrest⟩ := List.forall_mem_cons.mp hnone
        rw [render_targeted hbefore hlabel htarget, ih hrest, bracketed_of_not_address hhead]
        simp

end Reads

/-! ## The laws of the pass -/

/-- A target is an address if it holds an ASCII letter, and a dot, a colon or a slash. -/
def IsAddress (target : Text) : Prop :=
  (∃ c ∈ target, c.isAlpha = true) ∧ ∃ c ∈ target, c = '.' ∨ c = ':' ∨ c = '/'

/-- What a function does that rewrites links.  It goes from one opening bracket to the first closing one behind it, and
what it makes of the text before and of the label does not depend on what it makes of the rest. -/
structure Rewrites (f : Text → Text) : Prop where
  unopened {s : Text} : '[' ∉ s → f s = s
  unclosed {before inside : Text} : '[' ∉ before → ']' ∉ inside →
    f (before ++ '[' :: inside) = before ++ '[' :: inside
  untargeted {before label behind : Text} : '[' ∉ before → ']' ∉ label →
    behind.head? ≠ some '(' ∨ ')' ∉ behind →
      f (before ++ '[' :: (label ++ ']' :: behind)) = before ++ '[' :: (label ++ ']' :: f behind)
  address {before label target rest : Text} : '[' ∉ before → ']' ∉ label → ')' ∉ target →
    IsAddress (strip target) →
      f (before ++ '[' :: (label ++ ']' :: '(' :: (target ++ ')' :: rest))) =
        before ++ ("<a href=\"" ++ Html.escape (strip target) ++ "\">" ++ label ++ "</a>") ++ f rest
  text {before label target rest : Text} : '[' ∉ before → ']' ∉ label → ')' ∉ target →
    ¬IsAddress (strip target) →
      f (before ++ '[' :: (label ++ ']' :: '(' :: (target ++ ')' :: rest))) =
        before ++ '[' :: (label ++ ']' :: '(' :: (target ++ ')' :: f rest))

theorem isAddress_iff : isAddress target = true ↔ IsAddress target := by
  simp [isAddress, IsAddress, or_assoc]

instance (target : Text) : Decidable (IsAddress target) :=
  decidable_of_iff _ isAddress_iff

theorem element_eq (label target : Text) :
    element label target = "<a href=\"" ++ Html.escape target ++ "\">" ++ label ++ "</a>" := by
  unfold element Html.attr
  have hbefore : "<a href=\"".toList = "<a".toList ++ (" ".toList ++ "href".toList ++ "=\"".toList) := rfl
  have hbetween : "\">".toList = "\"".toList ++ ">".toList := rfl
  simp only [hbefore, hbetween, List.append_assoc]

theorem rewrites_render : Rewrites render where
  unopened := render_unopened
  unclosed := render_unclosed
  untargeted := by
    intro before label behind hbefore hlabel htarget
    exact render_untargeted hbefore hlabel fun hhead => htarget.resolve_left fun hne => hne hhead
  address := by
    intro before label target rest hbefore hlabel htarget haddress
    rw [render_targeted hbefore hlabel htarget, bracketed, if_pos (isAddress_iff.mpr haddress), element_eq]
  text := by
    intro before label target rest hbefore hlabel htarget haddress
    have hfalse : isAddress (strip target) = false :=
      Bool.eq_false_iff.mpr fun htrue => haddress (isAddress_iff.mp htrue)
    rw [render_targeted hbefore hlabel htarget, bracketed_of_not_address hfalse]
    simp

/-- The laws leave nothing open, since every text is read in one of the ways they are about. -/
theorem Rewrites.eq_render {f : Text → Text} (h : Rewrites f) : f = render := by
  have hlaws := rewrites_render
  funext s
  obtain ⟨pairs, hreads⟩ := exists_reads s
  induction hreads with
  | unopened hs => exact (h.unopened hs).trans (hlaws.unopened hs).symm
  | unclosed hbefore hinside => exact (h.unclosed hbefore hinside).trans (hlaws.unclosed hbefore hinside).symm
  | @untargeted before label behind pairs hbefore hlabel htarget _ ih =>
      have hbehind : behind.head? ≠ some '(' ∨ ')' ∉ behind := by
        by_cases hhead : behind.head? = some '('
        · exact .inr (htarget hhead)
        · exact .inl hhead
      rw [h.untargeted hbefore hlabel hbehind, hlaws.untargeted hbefore hlabel hbehind, ih]
  | @targeted before label target rest pairs hbefore hlabel htarget _ ih =>
      by_cases haddress : IsAddress (strip target)
      · rw [h.address hbefore hlabel htarget haddress, hlaws.address hbefore hlabel htarget haddress, ih]
      · rw [h.text hbefore hlabel htarget haddress, hlaws.text hbefore hlabel htarget haddress, ih]

/-- The pass keeps to the laws, and no other function does. -/
theorem rewrites_iff (f : Text → Text) : Rewrites f ↔ f = render := by
  constructor
  · exact Rewrites.eq_render
  · rintro rfl
    exact rewrites_render

/-- A bracket in a label, a target that is no address, a label without a target, and an address behind a space. -/
theorem rewrites_iff_nested :
    Rewrites render ∧ render "[a[b](c)][d] [e]( /f)" = "[a[b](c)][d] <a href=\"/f\">e</a>" := by
  have hlaws : Rewrites render := (rewrites_iff render).mpr rfl
  have htext : render "[a[b](c)][d] [e]( /f)" = "[a[b](c)" ++ render "][d] [e]( /f)" :=
    @Rewrites.text render hlaws [] "a[b" "c" _ (by decide) (by decide) (by decide) (by decide)
  have hplain : render "][d] [e]( /f)" = "][d]" ++ render " [e]( /f)" :=
    @Rewrites.untargeted render hlaws [']'] ['d'] _ (by decide) (by decide) (.inl (by decide))
  have hlink : render " [e]( /f)" = " <a href=\"/f\">e</a>" ++ render [] :=
    @Rewrites.address render hlaws [' '] ['e'] " /f" [] (by decide) (by decide) (by decide) (by decide)
  rw [htext, hplain, hlink, hlaws.unopened List.not_mem_nil]
  exact ⟨hlaws, rfl⟩

/-! ## The tags of links -/

/-- A mark that begins like a tag, but not like that of a link, is searched for beyond a link. -/
theorem isPassed_element {mark : Text} (hopen : ∀ t, skip? ('<' :: mark) ('<' :: 'a' :: t) = none)
    (hclose : ∀ t, skip? ('<' :: mark) ('<' :: '/' :: 'a' :: t) = none) (hlabel : '<' ∉ label) :
    IsPassed ('<' :: mark) (element label target) := by
  have htarget : '<' ∉ Html.escape target := Html.not_mem_escape (by decide) (by decide)
  have hattr : '<' ∉ 'a' :: (Html.attr "href" target ++ ">".toList) := by
    simp [Html.attr, htarget]
  have hfront : IsPassed ('<' :: mark) ("<a" ++ Html.attr "href" target ++ ">") :=
    .cons (fun t => hopen _) (.of_not_mem hattr)
  have hback : IsPassed ('<' :: mark) "</a>" :=
    .cons (fun t => hclose _) (.of_not_mem (by decide))
  exact (hfront.append (.of_not_mem hlabel)).append hback

theorem isPassed_render (hs : '<' ∉ s) : IsPassed CodeSpan.closeTag (render s) := by
  obtain ⟨pairs, hreads⟩ := exists_reads s
  rw [CodeSpan.closeTag_eq]
  induction hreads with
  | unopened hopen =>
      rw [render_unopened hopen]
      exact .of_not_mem hs
  | unclosed hbefore hinside =>
      rw [render_unclosed hbefore hinside]
      exact .of_not_mem hs
  | @untargeted before label behind pairs hbefore hlabel htarget _ ih =>
      simp only [List.mem_append, List.mem_cons, not_or] at hs
      have hfront : '<' ∉ before ++ '[' :: (label ++ [']']) := by simp [hs]
      rw [render_untargeted hbefore hlabel htarget]
      simpa using IsPassed.append (.of_not_mem hfront) (ih hs.2.2.2.2)
  | @targeted before label target rest pairs hbefore hlabel htarget _ ih =>
      simp only [List.mem_append, List.mem_cons, not_or] at hs
      rw [render_targeted hbefore hlabel htarget]
      refine .append (.append (.of_not_mem hs.1) ?_) (ih hs.2.2.2.2.2.2.2)
      unfold bracketed
      split
      · exact isPassed_element (fun _ => rfl) (fun _ => rfl) hs.2.2.1
      · exact .of_not_mem (by simp [hs])

end Link
end AtMark

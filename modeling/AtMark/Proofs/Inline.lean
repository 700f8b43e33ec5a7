import AtMark.Proofs.Inline.Styled

/-!
# `Proofs.Inline`: text without markup

## What is proved

Each pass has its marks, and a text in which none of them occurs is left as it is by that pass.  So a text without any
mark goes through all four as it was written (`Inline.render_unmarked`), whatever tags, brackets or end markers it
holds, and whatever the aliases are.

The marks are a backtick and a backslash for code, the openings of a style span, a bracket with a parenthesis right
behind it for links, and an asterisk for emphasis.  An opening tag of code in the text only cuts it for the last pass,
which copies what is inside and what is outside alike.

## What is not

That text with marks changes.  A mark without a partner stays in most passes; each pass has a module of its own here,
with the condition under which it leaves a text alone.
-/

namespace AtMark

open Search

variable {s : Text}

theorem StyleSpan.render_of_unopened (ctx : SpanContext) (h : ∀ opening ∈ openings, ¬opening <:+: s) :
    render ctx s = s := by
  have hstyled : Styled ctx [] s (render ctx s) := styled_piecesAfter ctx [] s
  generalize render ctx s = html at hstyled
  cases hstyled with
  | last _ => rfl
  | span _ _ hspan _ =>
      obtain ⟨hopening, -, -, -, -⟩ := hspan
      refine absurd ?_ (h _ hopening)
      simp only [List.append_assoc]
      exact ((List.prefix_append _ _).isInfix).trans (List.suffix_append _ _).isInfix

/-- Without a parenthesis right behind a closing bracket the link pass finds no pairs. -/
theorem Link.Reads.pairs_eq_nil {pairs : List (Text × Text)} (h : Reads s pairs) (hmark : ¬"](".toList <:+: s) :
    pairs = [] := by
  induction h with
  | unopened _ => rfl
  | unclosed _ _ => rfl
  | @untargeted before label behind _ _ _ _ _ ih =>
      refine ih fun hoccurs => hmark (hoccurs.trans ?_)
      exact ⟨before ++ '[' :: (label ++ [']']), [], by simp⟩
  | @targeted before label target rest _ _ _ _ _ _ =>
      exact absurd ⟨before ++ '[' :: label, target ++ ')' :: rest, by simp⟩ hmark

namespace Inline

/-- The marks of inline markup. -/
def marks : List Text :=
  ["\x60", "\\", "*", "](", "@(", "@style("]

/-- A text in which no mark occurs is rendered as it is. -/
theorem render_unmarked (ctx : SpanContext) (h : ∀ mark ∈ marks, ¬mark <:+: s) : render ctx s = s := by
  have hmem : ∀ {c : Char}, [c] ∈ marks → c ∉ s := fun hmark hc => h _ hmark ((List.singleton_infix_iff ..).mpr hc)
  have hcode : CodeSpan.render s = s := CodeSpan.render_eq_self (hmem (by simp [marks])) (hmem (by simp [marks]))
  have hopenings : StyleSpan.openings ⊆ marks := by
    simp [StyleSpan.openings, marks]
  have hstyles : StyleSpan.render ctx s = s :=
    StyleSpan.render_of_unopened ctx fun opening hopening => h opening (hopenings hopening)
  have hlinks : Link.render s = s := by
    obtain ⟨pairs, hreads⟩ := Link.exists_reads s
    obtain rfl := hreads.pairs_eq_nil (h _ (by simp [marks]))
    exact hreads.render_eq_self_iff.mpr nofun
  have hemphasis : emphasise s = s := by
    refine CodeRegion.mapOutside_eq_self fun t ht => Emphasis.render_eq_self_of_not_mem fun hstar => ?_
    exact hmem (by simp [marks]) (ht.subset hstar)
  rw [render, hcode, hstyles, hlinks, hemphasis]

/-- Tags of code that are opened twice, closed too often and left open, brackets of all kinds, and end markers. -/
theorem render_unmarked_tags :
    (∀ mark ∈ marks, ¬mark <:+: "<br> [a] (b)] @end <code>@<code>x</code>@</code> & [<code>".toList) ∧
      render {} "<br> [a] (b)] @end <code>@<code>x</code>@</code> & [<code>" =
        "<br> [a] (b)] @end <code>@<code>x</code>@</code> & [<code>" := by
  have h : ∀ mark ∈ marks, ¬mark <:+: "<br> [a] (b)] @end <code>@<code>x</code>@</code> & [<code>".toList := by
    decide
  exact ⟨h, render_unmarked {} h⟩

end Inline
end AtMark

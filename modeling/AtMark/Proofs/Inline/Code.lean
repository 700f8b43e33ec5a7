import AtMark.Inline
import AtMark.Proofs.Inline.Emphasis
import AtMark.Proofs.Inline.Link

/-!
# `Proofs.Inline.Code`: code spans among the later passes

## What is proved

A text between backticks is a code element after the first pass.  The style pass and the emphasis pass ask
for code and leave it alone, whatever is in it (`StyleSpan.render_element`, `CodeRegion.mapOutside_element`).
The link pass does not, so it reads the escaped text of the element like any other (`Inline.render_code`),
and the element stays as it is exactly if no target in it is an address (`Inline.render_code_eq_iff`).

The right side is decidable, and it fails for a label with an address behind it: there code becomes a link
(`Inline.code_with_link_changes`).

## How

Both passes that ask for code are loops with a termination measure, and their equations without it are `piecesAfter_eq`
and `segments_eq`.  Every position inside a code element has the end of the element for the end of its region
(`CodeRegion.ahead?_element`), also where the text of the element holds tags of code of its own, since those are
escaped.

## What is not

Code among other text.  Which spans the first pass finds in any text is in `Proofs.Inline.CodeSpan`; here the text is
one span.
-/

namespace AtMark

open Search

/-! ## The first pass -/

namespace CodeSpan

variable {c : Char} {s : Text}

theorem openTag_eq : openTag = ['<', 'c', 'o', 'd', 'e', '>'] := rfl

theorem pieces_cons (hslash : c ≠ '\\') (htick : c ≠ '\x60') (s : Text) :
    pieces (c :: s) = .plain c :: pieces s := by
  rw [pieces]
  · rintro d cs rfl
    exact absurd rfl hslash
  · rintro rfl
    exact absurd rfl htick

theorem render_eq_self (hslash : '\\' ∉ s) (htick : '\x60' ∉ s) : render s = s := by
  induction s with
  | nil => rw [render, pieces, List.flatMap_nil]
  | cons c s ih =>
      rw [List.mem_cons, not_or] at hslash htick
      rw [render, pieces_cons (Ne.symm hslash.1) (Ne.symm htick.1), List.flatMap_cons]
      exact congrArg (c :: ·) (ih hslash.2 htick.2)

theorem close?_append (hslash : '\\' ∉ s) (htick : '\x60' ∉ s) (t : Text) :
    close? (s ++ '\x60' :: t) = some (s, t) := by
  induction s with
  | nil => rfl
  | cons c s ih =>
      rw [List.mem_cons, not_or] at hslash htick
      rw [List.cons_append, close?, ih hslash.2 htick.2]
      · rfl
      · rintro d cs rfl
        exact absurd rfl hslash.1
      · rintro rfl
        exact absurd rfl htick.1

theorem render_span (hslash : '\\' ∉ s) (htick : '\x60' ∉ s) :
    render ('\x60' :: (s ++ ['\x60'])) = element s := by
  have hclose := close?_append hslash htick []
  rw [render, pieces]
  split
  · next inner rest hfound =>
    rw [hclose] at hfound
    cases hfound
    rw [pieces]
    exact List.append_nil _
  · next hnone =>
    rw [hclose] at hnone
    cases hnone

end CodeSpan

/-! ## The second pass -/

namespace StyleSpan

variable {s : Text}

theorem head?_of_afterOpening? {list : Text} (h : afterOpening? s = some list) : s.head? = some '@' := by
  unfold afterOpening? at h
  split at h
  · next found hfound => rw [skip?_eq_some_iff.mp hfound]; rfl
  · rw [skip?_eq_some_iff.mp h]; rfl

theorem head?_of_breakAtOpening {before rest : Text} (h : breakAtOpening s = some (before, rest)) :
    rest.head? = some '@' := by
  induction s generalizing before with
  | nil => cases h
  | cons c cs ih =>
      rw [breakAtOpening] at h
      split at h
      · next hopen =>
        cases h
        obtain ⟨list, hlist⟩ := Option.isSome_iff_exists.mp hopen
        exact head?_of_afterOpening? hlist
      · obtain ⟨⟨b, r⟩, hb, heq⟩ := Option.map_eq_some_iff.mp h
        cases heq
        exact ih hb

theorem breakAtOpening_eq_none (hat : '@' ∉ s) : breakAtOpening s = none := by
  cases h : breakAtOpening s with
  | none => rfl
  | some found =>
      obtain ⟨before, rest⟩ := found
      refine absurd ?_ hat
      rw [eq_of_breakAtOpening h]
      exact List.mem_append_right _ (List.mem_of_mem_head? (head?_of_breakAtOpening h))

variable {before lead opening : Text}

/-- The pieces without the bookkeeping of termination. -/
theorem piecesAfter_eq (before s : Text) : piecesAfter before s =
    match breakAtOpening s with
    | none => [.literal s]
    | some (lead, opening) =>
      match CodeRegion.ahead? (before ++ lead) opening with
      | some (inside, rest) => .literal (lead ++ inside) :: piecesAfter (before ++ lead ++ inside) rest
      | none =>
        match read? opening with
        | none =>
          .literal (lead ++ opening.take 1) ::
            piecesAfter (before ++ lead ++ opening.take 1) (opening.drop 1)
        | some span =>
          .literal lead :: .span (opening.take (opening.length - span.rest.length)) span.raw span.body ::
            piecesAfter (before ++ lead ++ opening.take (opening.length - span.rest.length)) span.rest := by
  fun_cases piecesAfter before s with
  | case1 hnone => rw [hnone]
  | case2 lead opening hopen inside rest hahead => simp only [hopen, hahead]
  | case3 lead opening hopen hahead hread => simp only [hopen, hahead, hread]
  | case4 lead opening hopen hahead span hread source => simp only [hopen, hahead, hread, source]

theorem piecesAfter_of_none (h : breakAtOpening s = none) (before : Text) :
    piecesAfter before s = [.literal s] := by
  rw [piecesAfter_eq, h]

theorem piecesAfter_of_ahead {inside rest : Text} (h : breakAtOpening s = some (lead, opening))
    (hahead : CodeRegion.ahead? (before ++ lead) opening = some (inside, rest)) :
    piecesAfter before s =
      .literal (lead ++ inside) :: piecesAfter (before ++ lead ++ inside) rest := by
  rw [piecesAfter_eq, h]
  simp only [hahead]

theorem render_eq_self (ctx : SpanContext) (hat : '@' ∉ s) : render ctx s = s := by
  rw [render, pieces, piecesAfter_of_none (breakAtOpening_eq_none hat)]
  exact List.append_nil s

end StyleSpan

namespace CodeRegion

variable {s t : Text}

theorem ahead?_element (hs : '<' ∉ s) (ht : '<' ∉ t) :
    ahead? (CodeSpan.openTag ++ s) (t ++ CodeSpan.closeTag) = some (t ++ CodeSpan.closeTag, []) := by
  have hlast : breakOnLast CodeSpan.openTag (CodeSpan.openTag ++ s) = some ([], s) :=
    breakOnLast_mark (by decide) hs
  have hclose : breakOn CodeSpan.closeTag (s ++ (t ++ CodeSpan.closeTag)) = some (s ++ t, []) := by
    have hpassed : IsPassed CodeSpan.closeTag (s ++ t) := .of_not_mem (List.not_mem_append hs ht)
    rw [← List.append_assoc, ← List.append_nil CodeSpan.closeTag]
    simpa using hpassed.breakOn_eq []
  unfold ahead?
  rw [hlast]
  simp only [hclose]
  rw [if_neg (by simp), List.drop_left]

end CodeRegion

namespace StyleSpan

theorem breakAtOpening_element {s lead opening : Text}
    (h : breakAtOpening (CodeSpan.element s) = some (lead, opening)) :
    ∃ front back, Html.escape s = front ++ back ∧ lead = CodeSpan.openTag ++ front ∧
      opening = back ++ CodeSpan.closeTag := by
  -- The opening begins with an at sign, and neither tag has one.
  obtain ⟨o, rfl⟩ := List.head?_eq_some_iff.mp (head?_of_breakAtOpening h)
  have heq := eq_of_breakAtOpening h
  rw [CodeSpan.element, List.append_assoc] at heq
  rcases List.append_eq_append_iff.mp heq with ⟨front, hlead, hrest⟩ | ⟨tag, htag, hrest⟩
  · rcases List.append_eq_append_iff.mp hrest with ⟨back, hfront, hclose⟩ | ⟨back, hs, hopening⟩
    · have hat : '@' ∈ CodeSpan.closeTag := hclose ▸ List.mem_append_right _ List.mem_cons_self
      exact absurd hat (by decide)
    · exact ⟨front, back, hs, hlead, hopening⟩
  · cases tag with
    | nil => exact ⟨[], Html.escape s, rfl, by rw [htag, List.append_nil, List.append_nil], hrest⟩
    | cons c tag =>
        have hat : '@' ∈ CodeSpan.openTag := by
          rw [(List.cons.inj hrest).1, htag]
          exact List.mem_append_right _ List.mem_cons_self
        exact absurd hat (by decide)

theorem render_element (ctx : SpanContext) (s : Text) :
    render ctx (CodeSpan.element s) = CodeSpan.element s := by
  have hescape : '<' ∉ Html.escape s := Html.not_mem_escape (by decide) (by decide)
  cases h : breakAtOpening (CodeSpan.element s) with
  | none =>
      rw [render, pieces, piecesAfter_of_none h]
      exact List.append_nil _
  | some found =>
      obtain ⟨lead, opening⟩ := found
      obtain ⟨front, back, hs, rfl, rfl⟩ := breakAtOpening_element h
      rw [hs, List.mem_append, not_or] at hescape
      have hahead := CodeRegion.ahead?_element hescape.1 hescape.2
      rw [render, pieces, piecesAfter_of_ahead h hahead, piecesAfter_of_none rfl, CodeSpan.element, hs]
      simp [Piece.html]

end StyleSpan

/-! ## The last pass -/

namespace CodeRegion

variable {f : Text → Text} {s : Text}

/-- The segments without the bookkeeping of termination. -/
theorem segments_eq (s : Text) : segments s =
    if s = [] then []
    else
      match breakOn CodeSpan.openTag s with
      | none => [.outside s]
      | some (before, inside) =>
        match breakOn CodeSpan.closeTag inside with
        | none => [.outside before, .region (CodeSpan.openTag ++ inside)]
        | some (inner, rest) =>
          .outside before :: .region (CodeSpan.openTag ++ inner ++ CodeSpan.closeTag) :: segments rest := by
  fun_cases segments s with
  | case1 hnil => rw [if_pos hnil]
  | case2 hne hopen => rw [if_neg hne, hopen]
  | case3 hne before inside hopen hclose => simp only [if_neg hne, hopen, hclose]
  | case4 hne before inside hopen inner rest hclose => simp only [if_neg hne, hopen, hclose]

theorem mapOutside_of_none (hf : f [] = []) (h : breakOn CodeSpan.openTag s = none) :
    mapOutside f s = f s := by
  rw [mapOutside, segments_eq, h]
  split
  · next hnil => rw [hnil, hf, List.flatMap_nil]
  · exact List.append_nil (f s)

theorem mapOutside_eq_self (hf : ∀ t, t <:+: s → f t = t) : mapOutside f s = s := by
  unfold mapOutside
  fun_induction segments s with
  | case1 => rfl
  | case2 s hne hopen =>
      rw [List.flatMap_cons, List.flatMap_nil, List.append_nil]
      exact hf s (List.infix_refl s)
  | case3 s hne before inside hopen hclose =>
      have hs : s = before ++ (CodeSpan.openTag ++ inside) := by rw [eq_of_breakOn hopen, List.append_assoc]
      have hbefore : f before = before := hf before (hs ▸ (List.prefix_append _ _).isInfix)
      rw [List.flatMap_cons, List.flatMap_cons, List.flatMap_nil, List.append_nil, Segment.map, hbefore, hs]
      rfl
  | case4 s hne before inside hopen inner rest hclose ih =>
      have hs : s = before ++ (CodeSpan.openTag ++ inner ++ CodeSpan.closeTag ++ rest) := by
        rw [eq_of_breakOn hopen, eq_of_breakOn hclose]
        simp only [List.append_assoc]
      have hbefore : f before = before := hf before (hs ▸ (List.prefix_append _ _).isInfix)
      have hrest : rest <:+: s := by
        rw [hs]
        exact ((List.suffix_append _ rest).trans (List.suffix_append _ _)).isInfix
      rw [List.flatMap_cons, List.flatMap_cons, Segment.map, hbefore, ih fun t ht => hf t (ht.trans hrest)]
      exact hs.symm

/-- A text that begins with a tag still does if the function keeps tags at the start. -/
theorem head?_mapOutside (hnil : f [] = []) (hf : ∀ t : Text, t.head? = some '<' → (f t).head? = some '<')
    (hs : s.head? = some '<') : (mapOutside f s).head? = some '<' := by
  have hne : s ≠ [] := by
    rintro rfl
    cases hs
  -- Code begins with a tag as well, so it does not matter which of the two comes first.
  have hfirst : ∀ {before inside : Text}, breakOn CodeSpan.openTag s = some (before, inside) →
      ∀ more, (f before ++ (CodeSpan.openTag ++ more)).head? = some '<' := by
    intro before inside hopen more
    cases before with
    | nil =>
        rw [hnil]
        rfl
    | cons c before =>
        rw [eq_of_breakOn hopen] at hs
        rw [List.head?_append, hf (c :: before) hs]
        rfl
  rw [mapOutside, segments_eq, if_neg hne]
  split
  · rw [List.flatMap_cons, List.head?_append, Segment.map, hf s hs]
    rfl
  · next before inside hopen =>
    split
    · rw [List.flatMap_cons, List.flatMap_cons, Segment.map, Segment.map, List.append_assoc]
      exact hfirst hopen _
    · next inner rest hclose =>
      rw [List.flatMap_cons, List.flatMap_cons, Segment.map, Segment.map, List.append_assoc, List.append_assoc]
      exact hfirst hopen _

theorem mapOutside_element (hf : f [] = []) (h : IsPassed CodeSpan.closeTag s) :
    mapOutside f (CodeSpan.openTag ++ s ++ CodeSpan.closeTag) =
      CodeSpan.openTag ++ s ++ CodeSpan.closeTag := by
  have hne : CodeSpan.openTag ++ s ++ CodeSpan.closeTag ≠ [] := by
    simp [CodeSpan.openTag_eq]
  have hopen : breakOn CodeSpan.openTag (CodeSpan.openTag ++ s ++ CodeSpan.closeTag) =
      some ([], s ++ CodeSpan.closeTag) := by
    rw [List.append_assoc, breakOn_mark]
  have hclose : breakOn CodeSpan.closeTag (s ++ CodeSpan.closeTag) = some (s, []) := by
    simpa using h.breakOn_eq []
  have hrest : segments [] = [] := by
    rw [segments, if_pos rfl]
  rw [mapOutside, segments_eq, if_neg hne, hopen]
  simp only [hclose, hrest]
  simp [Segment.map, hf]

end CodeRegion

/-! ## All passes -/

namespace Inline

theorem render_code (ctx : SpanContext) {s : Text} (hslash : '\\' ∉ s) (htick : '\x60' ∉ s) :
    render ctx ('\x60' :: (s ++ ['\x60'])) =
      CodeSpan.openTag ++ Link.render (Html.escape s) ++ CodeSpan.closeTag := by
  have hescape : '<' ∉ Html.escape s := Html.not_mem_escape (by decide) (by decide)
  have hlinks : Link.render (CodeSpan.element s) =
      CodeSpan.openTag ++ Link.render (Html.escape s) ++ CodeSpan.closeTag := by
    rw [CodeSpan.element, Link.render_append_right (by decide), Link.render_append_left (by decide)]
  have hnil : Emphasis.render [] = [] := Emphasis.render_eq_self_of_not_mem List.not_mem_nil
  rw [render, CodeSpan.render_span hslash htick, StyleSpan.render_element, hlinks, emphasise,
    CodeRegion.mapOutside_element hnil (Link.isPassed_render hescape)]

/-- A code span comes out as it was written exactly if its text, escaped, has no address behind a label in
brackets.  Styles and emphasis in it are never read, but links are. -/
theorem render_code_eq_iff (ctx : SpanContext) {s : Text} (hslash : '\\' ∉ s) (htick : '\x60' ∉ s) :
    render ctx ('\x60' :: (s ++ ['\x60'])) = "<code>" ++ Link.render (Html.escape s) ++ "</code>" ∧
      ∃ pairs, Link.Reads (Html.escape s) pairs ∧
        (render ctx ('\x60' :: (s ++ ['\x60'])) = "<code>" ++ Html.escape s ++ "</code>" ↔
          ∀ p ∈ pairs, Link.isAddress (Text.strip p.2) = false) := by
  obtain ⟨pairs, hreads⟩ := Link.exists_reads (Html.escape s)
  refine ⟨render_code ctx hslash htick, pairs, hreads, ?_⟩
  rw [render_code ctx hslash htick, ← hreads.render_eq_self_iff]
  constructor
  · intro h
    exact List.append_cancel_left (List.append_cancel_right h)
  · intro h
    rw [h]
    rfl

/-- Styles, emphasis and a label without an address stay in code as they are. -/
theorem render_code_eq_iff_markup :
    '\\' ∉ "@(class=x){**y**} [1](2)".toList ∧ '\x60' ∉ "@(class=x){**y**} [1](2)".toList ∧
      render {} "\x60@(class=x){**y**} [1](2)\x60" = "<code>@(class=x){**y**} [1](2)</code>" := by
  have hslash : '\\' ∉ "@(class=x){**y**} [1](2)".toList := by decide
  have htick : '\x60' ∉ "@(class=x){**y**} [1](2)".toList := by decide
  obtain ⟨heq, -⟩ := render_code_eq_iff {} hslash htick
  exact ⟨hslash, htick, heq.trans (by decide +kernel)⟩

/-- An address behind a label becomes a link in code, too. -/
theorem code_with_link_changes :
    render {} "\x60[a](b.c)\x60" = "<code><a href=\"b.c\">a</a></code>" ∧
      render {} "\x60[a](b.c)\x60" ≠ "<code>" ++ Html.escape "[a](b.c)" ++ "</code>" := by
  decide +kernel

end Inline
end AtMark

import AtMark.Proofs.Inline.Code

/-!
# `Proofs.Inline.CodeRegion`: two ways to ask for code

## What is proved

`segments` goes over a text from region to region, and `ahead?` looks back from a position for the last opening
tag before it.  An at sign is in no tag, so at an at sign the two agree, however the tags are repeated, nested or
left open (`endOf?_eq_some_iff`).

## How

What `ahead?` finds is said by three equations.  Where no opening tag stands before the position, there is no
region (`ahead?_outside`).  Behind an opening tag the region goes on up to the first closing tag behind that one,
no matter which further opening tags stand in between (`ahead?_inside`), and to the end of the text without one
(`ahead?_unclosed`).  And a region that is closed before the position does not matter (`ahead?_behind`).

`endIn?` is the answer that going over the segments gives.  It has the same three equations (`endIn?_cons_of_lt`,
`endIn?_region`, `endIn?_behind`), so the two are compared region by region.

## What is not

Positions of other characters.  Inside a tag the two ways differ: the one that goes over the text has not come to the
region yet, and the one that looks back may not see a tag that it stands in.
-/

namespace AtMark.CodeRegion

open Search CodeSpan

variable {s t lead opened inside inner rest : Text}

/-! ## The tags -/

theorem openTag_ne_nil : openTag ≠ [] := List.cons_ne_nil _ _

theorem not_infix_closeTag_append (h : ¬openTag <:+: t) : ¬openTag <:+: closeTag ++ t := by
  -- No opening tag goes over the slash, and behind it no tag begins.
  intro hoccurs
  rcases infix_of_parted (s := ['<']) (t := ['c', 'o', 'd', 'e', '>'] ++ t) (by decide) hoccurs with h' | h'
  · exact absurd h'.length_le (by decide)
  · have hpassed : IsPassed openTag ['c', 'o', 'd', 'e', '>'] := .of_not_mem (by decide)
    refine breakOn_eq_none_iff.mp ?_ h'
    rw [hpassed, breakOn_eq_none_iff.mpr h]
    rfl

/-- The last opening tag of a text does not begin in a closing tag behind which no other one stands. -/
theorem suffix_of_breakOnLast {before after : Text} (ht : ¬openTag <:+: t)
    (h : breakOnLast openTag (s ++ (closeTag ++ t)) = some (before, after)) : closeTag ++ t <:+ after := by
  have heq := eq_of_breakOnLast h
  rw [List.append_assoc] at heq
  rcases List.append_eq_append_iff.mp heq with ⟨u, -, hu⟩ | ⟨u, -, hu⟩
  · refine absurd ?_ (not_infix_closeTag_append ht)
    exact ⟨u, after, (List.append_assoc ..).trans hu.symm⟩
  · rcases List.append_eq_append_iff.mp hu with ⟨v, -, hv⟩ | ⟨v, hv, hw⟩
    · exact ⟨v, hv.symm⟩
    · -- The closing tag would begin in the opening tag.
      cases v with
      | nil => exact ⟨[], hw⟩
      | cons c v =>
          cases u with
          | nil =>
              refine absurd ?_ (not_infix_closeTag_append ht)
              exact ⟨[], after, by rw [hv, hw]; rfl⟩
          | cons d u =>
              rw [openTag_eq] at hv
              have hmem : c ∈ ['c', 'o', 'd', 'e', '>'] := by
                rw [(List.cons.inj hv).2]
                exact List.mem_append_right u List.mem_cons_self
              rw [← (List.cons.inj hw).1] at hmem
              exact absurd hmem (by decide)

/-- An at sign stands before a tag or behind it. -/
theorem append_atSign_eq {u v w z tag : Text} (htag : '@' ∉ tag) (h : u ++ '@' :: v = w ++ (tag ++ z)) :
    (∃ w', w = u ++ '@' :: w' ∧ v = w' ++ (tag ++ z)) ∨ ∃ u', u = w ++ (tag ++ u') ∧ z = u' ++ '@' :: v := by
  have hnil : ∀ {front : Text}, '@' ∉ front → '@' :: v = front ++ z → front = [] ∧ z = '@' :: v := by
    intro front hfront heq
    cases front with
    | nil => exact ⟨rfl, heq.symm⟩
    | cons c front => exact absurd ((List.cons.inj heq).1 ▸ List.mem_cons_self) hfront
  rcases List.append_eq_append_iff.mp h with ⟨w', hw, hv⟩ | ⟨u', hu, hz⟩
  · cases w' with
    | nil =>
        obtain ⟨rfl, hz⟩ := hnil htag hv
        exact .inr ⟨[], by simpa using hw.symm, hz⟩
    | cons c w' =>
        cases hv
        exact .inl ⟨w', hw, rfl⟩
  · rcases List.append_eq_append_iff.mp hz with ⟨u'', hu', hz'⟩ | ⟨front, hu', hv⟩
    · exact .inr ⟨u'', by rw [hu, hu'], hz'⟩
    · rw [hu', List.mem_append, not_or] at htag
      obtain ⟨rfl, hz'⟩ := hnil htag.2 hv
      rw [hu', List.append_nil]
      exact .inr ⟨[], by rw [hu, List.append_nil], hz'⟩

/-! ## Looking back from a position -/

theorem ahead?_outside (h : ¬openTag <:+: s) (rest : Text) : ahead? s rest = none := by
  rw [ahead?, breakOnLast_eq_none_iff.mpr h]

theorem ahead?_inside (h : breakOn closeTag (opened ++ (inside ++ (closeTag ++ rest))) = some (opened ++ inside, rest))
    (lead : Text) :
    ahead? (lead ++ (openTag ++ opened)) (inside ++ (closeTag ++ rest)) = some (inside ++ closeTag, rest) := by
  obtain ⟨before, after, hlast, u, rfl⟩ := exists_breakOnLast openTag_ne_nil lead opened
  rw [List.append_assoc, List.append_assoc] at h
  have hclose := breakOn_of_append h
  unfold ahead?
  rw [hlast]
  simp only [hclose]
  rw [if_neg (by simp), List.drop_left]

theorem ahead?_unclosed (h : ¬closeTag <:+: opened ++ inside) (lead : Text) :
    ahead? (lead ++ (openTag ++ opened)) inside = some (inside, []) := by
  obtain ⟨before, after, hlast, u, rfl⟩ := exists_breakOnLast openTag_ne_nil lead opened
  have hclose : breakOn closeTag (after ++ inside) = none := by
    refine breakOn_eq_none_iff.mpr fun hoccurs => h (hoccurs.trans ?_)
    rw [List.append_assoc]
    exact (List.suffix_append u _).isInfix
  unfold ahead?
  rw [hlast]
  simp only [hclose]

theorem ahead?_behind (h : breakOn closeTag (inner ++ (closeTag ++ (t ++ rest))) = some (inner, t ++ rest))
    (lead : Text) :
    ahead? (lead ++ (openTag ++ (inner ++ (closeTag ++ t)))) rest = ahead? t rest := by
  cases ht : breakOnLast openTag t with
  | some found =>
      have hall := breakOnLast_append ht (lead ++ (openTag ++ (inner ++ closeTag)))
      simp only [List.append_assoc] at hall
      unfold ahead?
      rw [ht, hall]
  | none =>
      have hnone := breakOnLast_eq_none_iff.mp ht
      obtain ⟨before, after, hlast, u, hu⟩ := exists_breakOnLast openTag_ne_nil lead (inner ++ (closeTag ++ t))
      have hlast' : breakOnLast openTag ((lead ++ (openTag ++ inner)) ++ (closeTag ++ t)) = some (before, after) := by
        simpa only [List.append_assoc] using hlast
      obtain ⟨v, rfl⟩ := suffix_of_breakOnLast hnone hlast'
      have hinner : inner = u ++ v := by
        rw [← List.append_assoc] at hu
        exact (List.append_cancel_right hu).symm
      rw [hinner, List.append_assoc] at h
      have hclose := breakOn_of_append h
      rw [ahead?_outside hnone]
      unfold ahead?
      rw [hlast]
      simp only [List.append_assoc, hclose]
      rw [if_pos]
      simp only [List.length_append, length_closeTag]
      omega

theorem ahead?_within {before front back after : Text}
    (h : ahead? before rest = some (front ++ '@' :: back, after)) :
    ahead? (before ++ front) ('@' :: (back ++ after)) = some ('@' :: back, after) := by
  unfold ahead? at h
  split at h
  · cases h
  · next lead opened hlast =>
    rw [eq_of_breakOnLast hlast, List.append_assoc, List.append_assoc]
    split at h
    · next hclose =>
      cases h
      rw [List.append_nil]
      refine ahead?_unclosed ?_ lead
      rw [List.append_assoc]
      exact breakOn_eq_none_iff.mp hclose
    · next inner tail hclose =>
      split at h
      · cases h
      · next hlength =>
        obtain ⟨hinside, rfl⟩ := Prod.mk.inj (Option.some.inj h)
        have heq := eq_of_breakOn hclose
        rw [List.append_assoc] at heq
        obtain ⟨d, rfl⟩ := List.prefix_of_prefix_length_le (heq ▸ List.prefix_append opened rest)
          (List.prefix_append inner (closeTag ++ tail)) (Nat.le_of_not_lt hlength)
        rw [List.drop_left] at hinside
        -- The at sign is not in the closing tag.
        have hsplit : front ++ '@' :: back = d ++ (closeTag ++ []) := by rw [← hinside, List.append_nil]
        rcases append_atSign_eq (by decide) hsplit with ⟨w, rfl, rfl⟩ | ⟨u, -, hu⟩
        · have hclose' : breakOn closeTag ((opened ++ front) ++ ('@' :: w ++ (closeTag ++ tail))) =
              some ((opened ++ front) ++ '@' :: w, tail) := by
            simpa [heq] using hclose
          simpa using ahead?_inside hclose' lead
        · simp at hu

/-! ## Going over a text -/

/-- A segment as it stands in the text. -/
def Segment.text : Segment → Text
  | .outside text => text
  | .region text => text

/-- What segments make up. -/
def textOf (segs : List Segment) : Text :=
  segs.flatMap Segment.text

/-- The end of the region, among segments that follow one another from the start of a text, that holds a position. -/
def endIn? : List Segment → Nat → Option Nat
  | [], _ => none
  | .outside text :: more, p =>
    if p < text.length then none else (endIn? more (p - text.length)).map (text.length + ·)
  | .region text :: more, p =>
    if p < text.length then some text.length else (endIn? more (p - text.length)).map (text.length + ·)

theorem textOf_segments (s : Text) : textOf (segments s) = s := by
  have hmap : Segment.map id = Segment.text := by
    funext segment
    cases segment with
    | outside text => rfl
    | region text => rfl
  rw [textOf, ← hmap]
  exact mapOutside_eq_self fun t _ => rfl

theorem segments_plain (h : '<' ∉ s) : segments s = if s = [] then [] else [.outside s] := by
  have hnone : breakOn openTag s = none := (IsPassed.of_not_mem h).breakOn_eq_none
  rw [segments_eq, hnone]

theorem segments_element (hlead : '<' ∉ lead) (hinner : '<' ∉ inner) (rest : Text) :
    segments (lead ++ (openTag ++ inner ++ closeTag ++ rest)) =
      .outside lead :: .region (openTag ++ inner ++ closeTag) :: segments rest := by
  have hopen : breakOn openTag (lead ++ (openTag ++ (inner ++ (closeTag ++ rest)))) =
      some (lead, inner ++ (closeTag ++ rest)) := (IsPassed.of_not_mem hlead).breakOn_eq _
  have hclose : breakOn closeTag (inner ++ (closeTag ++ rest)) = some (inner, rest) :=
    (IsPassed.of_not_mem hinner).breakOn_eq rest
  rw [List.append_assoc, List.append_assoc, segments_eq, if_neg (by simp [openTag_ne_nil]), hopen]
  simp only [hclose]

variable {segment : Segment} {segs : List Segment} {p stop : Nat}

theorem endIn?_cons_of_lt (h : p < segment.text.length) (segs : List Segment) :
    endIn? (segment :: segs) p =
      match segment with
      | .outside _ => none
      | .region text => some text.length := by
  cases segment with
  | outside text => exact if_pos h
  | region text => exact if_pos h

theorem endIn?_cons_add (segment : Segment) (segs : List Segment) (p : Nat) :
    endIn? (segment :: segs) (segment.text.length + p) = (endIn? segs p).map (segment.text.length + ·) := by
  have hlt : ¬segment.text.length + p < segment.text.length := by omega
  cases segment with
  | outside text =>
      refine (if_neg hlt).trans ?_
      rw [Segment.text, Nat.add_sub_cancel_left]
  | region text =>
      refine (if_neg hlt).trans ?_
      rw [Segment.text, Nat.add_sub_cancel_left]

theorem endIn?_region {code : Text} (h : p < code.length) (lead : Text) (segs : List Segment) :
    endIn? (.outside lead :: .region code :: segs) (lead.length + p) = some (lead.length + code.length) := by
  refine (endIn?_cons_add (.outside lead) _ p).trans ?_
  rw [endIn?_cons_of_lt h]
  rfl

theorem endIn?_behind (lead code : Text) (segs : List Segment) (p : Nat) :
    endIn? (.outside lead :: .region code :: segs) (lead.length + (code.length + p)) =
      (endIn? segs p).map fun stop => lead.length + (code.length + stop) := by
  refine (endIn?_cons_add (.outside lead) _ _).trans ?_
  refine (congrArg _ (endIn?_cons_add (.region code) segs p)).trans ?_
  rw [Option.map_map]
  rfl

theorem length_textOf_cons (segment : Segment) (segs : List Segment) :
    (textOf (segment :: segs)).length = segment.text.length + (textOf segs).length := by
  rw [textOf, List.flatMap_cons, List.length_append]
  rfl

theorem endIn?_eq_some_iff : endIn? segs p = some stop ↔
    ∃ front code behind, segs = front ++ .region code :: behind ∧ (textOf front).length ≤ p ∧ p < stop ∧
      stop = (textOf front).length + code.length := by
  induction segs generalizing p stop with
  | nil => simp [endIn?]
  | cons segment segs ih =>
      rcases Nat.lt_or_ge p segment.text.length with hlt | hge
      · rw [endIn?_cons_of_lt hlt]
        constructor
        · intro h
          cases segment with
          | outside text => cases h
          | region text =>
              cases h
              exact ⟨[], text, segs, rfl, Nat.zero_le p, hlt, (Nat.zero_add _).symm⟩
        · rintro ⟨front, code, behind, hsegs, hle, -, hstop⟩
          cases front with
          | nil =>
              cases hsegs
              rw [hstop]
              exact congrArg some (Nat.zero_add _).symm
          | cons first front =>
              cases hsegs
              rw [length_textOf_cons] at hle
              omega
      · obtain ⟨q, rfl⟩ := Nat.exists_eq_add_of_le hge
        rw [endIn?_cons_add, Option.map_eq_some_iff]
        constructor
        · rintro ⟨inner, hinner, rfl⟩
          obtain ⟨front, code, behind, rfl, hle, hlt, hstop⟩ := ih.mp hinner
          refine ⟨segment :: front, code, behind, rfl, ?_, Nat.add_lt_add_left hlt _, ?_⟩
          · rw [length_textOf_cons]
            omega
          · rw [length_textOf_cons, hstop, Nat.add_assoc]
        · rintro ⟨front, code, behind, hsegs, hle, hlt, hstop⟩
          cases front with
          | nil =>
              cases hsegs
              simp [textOf, Segment.text] at hlt hstop
              omega
          | cons first front =>
              cases hsegs
              rw [length_textOf_cons] at hle hstop
              exact ⟨(textOf front).length + code.length,
                ih.mpr ⟨front, code, behind, rfl, by omega, by omega, rfl⟩, by omega⟩

/-! ## At an at sign -/

/-- In the text before the first region no position is inside code. -/
theorem ahead?_eq_endIn?_lead {before after : Text} (h : ¬openTag <:+: before ++ '@' :: after) (rest : Text)
    (segs : List Segment) :
    (ahead? before rest).map (fun found => before.length + found.1.length) =
      endIn? (.outside (before ++ '@' :: after) :: segs) before.length := by
  have hnone : ¬openTag <:+: before := fun hoccurs => h (hoccurs.trans (List.prefix_append before _).isInfix)
  rw [ahead?_outside hnone, endIn?_cons_of_lt]
  · rfl
  · simp [Segment.text]

/-- At an at sign, looking back for a region and going over the text find the same end. -/
theorem ahead?_eq_endIn? (s before after : Text) (hs : s = before ++ '@' :: after) :
    (ahead? before ('@' :: after)).map (fun found => before.length + found.1.length) =
      endIn? (segments s) before.length := by
  have hopenTag : '@' ∉ openTag := by decide
  have hcloseTag : '@' ∉ closeTag := by decide
  fun_induction segments s generalizing before with
  | case1 => simp at hs
  | case2 s hne hopen =>
      subst hs
      exact ahead?_eq_endIn?_lead (breakOn_eq_none_iff.mp hopen) _ _
  | case3 s hne lead inside hopen hclose =>
      have hlead := not_infix_of_breakOn openTag_ne_nil hopen
      rw [eq_of_breakOn hopen, List.append_assoc] at hs
      rcases append_atSign_eq hopenTag hs.symm with ⟨w, rfl, -⟩ | ⟨u, rfl, rfl⟩
      · exact ahead?_eq_endIn?_lead hlead _ _
      · rw [ahead?_unclosed (breakOn_eq_none_iff.mp hclose), List.length_append, endIn?_region (by simp)]
        simp [Nat.add_assoc]
  | case4 s hne lead inside hopen inner rest hclose ih =>
      have hlead := not_infix_of_breakOn openTag_ne_nil hopen
      have hinside := eq_of_breakOn hclose
      rw [List.append_assoc] at hinside
      rw [eq_of_breakOn hopen, List.append_assoc] at hs
      rw [hinside] at hclose
      rcases append_atSign_eq hopenTag hs.symm with ⟨w, rfl, -⟩ | ⟨u, rfl, hu⟩
      · exact ahead?_eq_endIn?_lead hlead _ _
      · rw [hinside] at hu
        rcases append_atSign_eq hcloseTag hu.symm with ⟨w, rfl, rfl⟩ | ⟨u', rfl, rfl⟩
        · have hclose' : breakOn closeTag (u ++ ('@' :: w ++ (closeTag ++ rest))) = some (u ++ '@' :: w, rest) := by
            simpa using hclose
          rw [← List.cons_append, ahead?_inside hclose', List.length_append, endIn?_region (by simp)]
          simp [Nat.add_assoc]
        · have hbefore : (lead ++ (openTag ++ (inner ++ (closeTag ++ u')))).length =
              lead.length + ((openTag ++ inner ++ closeTag).length + u'.length) := by
            simp [Nat.add_assoc]
          rw [ahead?_behind hclose, hbefore, endIn?_behind, ← ih u' rfl, Option.map_map]
          congr 1
          funext found
          simp [Nat.add_assoc]

/-- The segments make up the text, and at an at sign `endOf?` answers exactly if the position is in one of the regions
that are copied, and then with the end of that region. -/
theorem endOf?_eq_some_iff {text : Text} (hat : text[p]? = some '@') :
    textOf (segments text) = text ∧
      (endOf? text p = some stop ↔
        ∃ front code behind, segments text = front ++ .region code :: behind ∧
          (textOf front).length ≤ p ∧ p < stop ∧ stop = (textOf front).length + code.length) := by
  refine ⟨textOf_segments text, ?_⟩
  obtain ⟨hp, hget⟩ := List.getElem?_eq_some_iff.mp hat
  have hdrop : text.drop p = '@' :: text.drop (p + 1) := by rw [List.drop_eq_getElem_cons hp, hget]
  have hlength : (text.take p).length = p := by
    rw [List.length_take]
    omega
  have htext : text = text.take p ++ '@' :: text.drop (p + 1) := by rw [← hdrop, List.take_append_drop]
  have hends := ahead?_eq_endIn? text (text.take p) (text.drop (p + 1)) htext
  rw [hlength] at hends
  rw [← endIn?_eq_some_iff, ← hends, endOf?, hdrop, hlength]

/-- Two opening tags before one closing tag, a stray closing tag and an unclosed region at the end. -/
theorem endOf?_eq_some_iff_malformed :
    "<code>a<code>@</code>@</code>@<code>@".toList[13]? = some '@' ∧
      endOf? "<code>a<code>@</code>@</code>@<code>@" 13 = some 21 ∧
      endOf? "<code>a<code>@</code>@</code>@<code>@" 21 = none ∧
      ∃ front code behind, segments "<code>a<code>@</code>@</code>@<code>@" = front ++ .region code :: behind ∧
        (textOf front).length ≤ 13 ∧ 13 < 21 ∧ 21 = (textOf front).length + code.length := by
  have hat : "<code>a<code>@</code>@</code>@<code>@".toList[13]? = some '@' := by decide
  have hend : endOf? "<code>a<code>@</code>@</code>@<code>@" 13 = some 21 := by decide +kernel
  exact ⟨hat, hend, by decide +kernel, (endOf?_eq_some_iff hat).2.mp hend⟩

end AtMark.CodeRegion

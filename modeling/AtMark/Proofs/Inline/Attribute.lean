import AtMark.Proofs.Inline.StyleSpan

/-!
# `Proofs.Inline.Attribute`: the values that tags are written with

## What is proved

A link and a style span are written with a value inside a tag, the address and the classes.  No pass skips
tags.  The link pass finds nothing in such a value, but the last pass looks for markers in it as in any other
text (`emphasise_value`), so the value comes out exactly if nothing in it is enclosed by markers
(`render_attribute_eq_iff`).

The right side is decidable and fails for two asterisks with a letter between them: the tag then has an element inside
(`attribute_with_markers_changes`).  One asterisk alone has no partner and stays.

## What is not

Values with signs of the earlier passes.  A backtick or a backslash in an address is code or an escape before there is
a tag, and a class value that reads as a declaration is written as a style.  The label is
any text without the signs of the passes; what stands around the tags does not bear on the value in them.
-/

namespace AtMark.Inline

open Search Emphasis

variable {t u v before value between behind : Text}

/-- The characters that some pass takes for more than themselves in a label or a body. -/
def signs : Text := "\\\x60@[]\x7b\x7d\"'<*"

/-- The last pass reads a value between tags without markers. -/
theorem emphasise_value
    (hcode : breakOn CodeSpan.openTag (before ++ value ++ between ++ t ++ behind) = none)
    (hbefore : '*' ∉ before) (hslash : '\\' ∉ before) (hbetween : '*' ∉ between) (ht : '*' ∉ t)
    (hbehind : '*' ∉ behind) :
    emphasise (before ++ value ++ between ++ t ++ behind) =
      before ++ Emphasis.render value ++ between ++ t ++ behind := by
  have hnil : Emphasis.render [] = [] := render_eq_self_of_not_mem List.not_mem_nil
  rw [emphasise, CodeRegion.mapOutside_of_none hnil hcode, render_append_right hbehind,
    render_append_right ht, render_append_right hbetween, render_append_left hbefore hslash]

theorem not_mem_parts {c : Char} (hbefore : c ∉ before) (hvalue : c ∉ value) (hbetween : c ∉ between)
    (ht : c ∉ t) (hbehind : c ∉ behind) : c ∉ before ++ value ++ between ++ t ++ behind := by
  simp only [List.mem_append, not_or]
  exact ⟨⟨⟨⟨hbefore, hvalue⟩, hbetween⟩, ht⟩, hbehind⟩

theorem append_value_inj {value' : Text} :
    before ++ value ++ between ++ t ++ behind = before ++ value' ++ between ++ t ++ behind ↔
      value = value' := by
  simp only [List.append_left_inj, List.append_right_inj]

/-! ## Links -/

/-- The characters by which the first three passes find the end of an address or more markup in it. -/
def addressSigns : Text := "\x60\\@[])<>"

theorem links_of_address (ht : ']' ∉ t) (hstrip : Text.strip u = u) (haddress : Link.isAddress u = true)
    (hu : ')' ∉ u) : Link.render ("[" ++ t ++ "](" ++ u ++ ")") = Link.element t u := by
  have hopen : "[".toList = ['['] := rfl
  have hbetween : "](".toList = [']', '('] := rfl
  have hclose : ")".toList = [')'] := rfl
  have hsource : "[" ++ t ++ "](" ++ u ++ ")" =
      ([] : Text) ++ '[' :: (t ++ ']' :: '(' :: (u ++ ')' :: [])) := by
    rw [hopen, hbetween, hclose]
    simp only [List.append_assoc, List.cons_append, List.nil_append]
  rw [hsource, Link.render_targeted List.not_mem_nil ht hu, Link.render_unopened List.not_mem_nil,
    Link.bracketed, hstrip, if_pos haddress]
  exact List.append_nil _

theorem render_link (ctx : SpanContext) (ht : ∀ c ∈ signs, c ∉ t) (hstrip : Text.strip u = u)
    (haddress : Link.isAddress u = true) (hu : ∀ c ∈ addressSigns, c ∉ u) :
    render ctx ("[" ++ t ++ "](" ++ u ++ ")") =
      "<a href=\"" ++ Emphasis.render (Html.escape u) ++ "\">" ++ t ++ "</a>" := by
  have hsigns : ∀ c ∈ "\\\x60@".toList, c ∈ signs ∧ c ∈ addressSigns ∧ c ∉ "[".toList ∧
      c ∉ "](".toList ∧ c ∉ ")".toList := by decide
  have hplain : ∀ c ∈ "\\\x60@".toList, c ∉ "[" ++ t ++ "](" ++ u ++ ")" := by
    intro c hc
    obtain ⟨hlabel, haddress, hopen, hbetween, hclose⟩ := hsigns c hc
    exact not_mem_parts hopen (ht c hlabel) hbetween (hu c haddress) hclose
  have hcode : breakOn CodeSpan.openTag (Link.element t u) = none :=
    (Link.isPassed_element (fun _ => rfl) (fun _ => rfl) (ht '<' (by decide))).breakOn_eq_none
  rw [Link.element_eq] at hcode
  rw [render, CodeSpan.render_eq_self (hplain _ (by decide)) (hplain _ (by decide)),
    StyleSpan.render_eq_self ctx (hplain _ (by decide)),
    links_of_address (ht _ (by decide)) hstrip haddress (hu _ (by decide)), Link.element_eq,
    emphasise_value hcode (by decide) (by decide) (by decide) (ht _ (by decide)) (by decide)]

/-! ## Style spans -/

/-- The characters by which the first three passes find the end of a class value or markup in it. -/
def classSigns : Text := "\"'&\x60\\@<>["

theorem styles_of_class (ctx : SpanContext) (ht : ∀ c ∈ signs, c ∉ t)
    (hctx : SpanAttributes.isMoved ctx v = false) (hne : v ≠ []) (hv : ∀ c ∈ classSigns, c ∉ v) :
    StyleSpan.render ctx ("@(class=\"" ++ v ++ "\")\x7b" ++ t ++ "\x7d") =
      "<span class=\"" ++ v ++ "\">" ++ t ++ "</span>" := by
  have hbrace : ∀ c ∈ Quotation.braceSigns, c ∈ signs := by decide
  have hspecial : ∀ c ∈ Html.special, c ∈ classSigns := by decide
  have hescape : Html.escape v = v :=
    Html.escape_eq_self fun c hc hin => hv c (hspecial c hin) hc
  have hspan := StyleSpan.render_class hctx hne (hv _ (by decide)) (hv _ (by decide)) (hv _ (by decide))
    fun c hc => ht c (hbrace c hc)
  rw [hescape] at hspan
  exact hspan

theorem breakOn_span (hv : '<' ∉ v) (ht : '<' ∉ t) :
    breakOn CodeSpan.openTag ("<span class=\"" ++ v ++ "\">" ++ t ++ "</span>") = none := by
  have hspan : '<' ∉ "span class=\"".toList := by decide
  have hbody : '<' ∉ "span class=\"" ++ v ++ "\">" ++ t :=
    List.not_mem_append (List.not_mem_append (List.not_mem_append hspan hv) (by decide)) ht
  have hopen : IsPassed CodeSpan.openTag ("<span class=\"" ++ v ++ "\">" ++ t) :=
    .cons (fun _ => rfl) (.of_not_mem hbody)
  have hclose : IsPassed CodeSpan.openTag "</span>" :=
    .cons (fun _ => rfl) (.of_not_mem (by decide))
  exact (hopen.append hclose).breakOn_eq_none

theorem render_span (ctx : SpanContext) (ht : ∀ c ∈ signs, c ∉ t)
    (hctx : SpanAttributes.isMoved ctx v = false) (hne : v ≠ []) (hv : ∀ c ∈ classSigns, c ∉ v) :
    render ctx ("@(class=\"" ++ v ++ "\")\x7b" ++ t ++ "\x7d") =
      "<span class=\"" ++ Emphasis.render v ++ "\">" ++ t ++ "</span>" := by
  have hsigns : ∀ c ∈ "\\\x60".toList, c ∈ signs ∧ c ∈ classSigns ∧ c ∉ "@(class=\"".toList ∧
      c ∉ "\")\x7b".toList ∧ c ∉ "\x7d".toList := by decide
  have hplain : ∀ c ∈ "\\\x60".toList, c ∉ "@(class=\"" ++ v ++ "\")\x7b" ++ t ++ "\x7d" := by
    intro c hc
    obtain ⟨hbody, hclass, hopen, hbetween, hclose⟩ := hsigns c hc
    exact not_mem_parts hopen (hv c hclass) hbetween (ht c hbody) hclose
  have hlinks : '[' ∉ "<span class=\"" ++ v ++ "\">" ++ t ++ "</span>" :=
    not_mem_parts (by decide) (hv _ (by decide)) (by decide) (ht _ (by decide)) (by decide)
  have hcode := breakOn_span (hv '<' (by decide)) (ht '<' (by decide))
  rw [render, CodeSpan.render_eq_self (hplain _ (by decide)) (hplain _ (by decide)),
    styles_of_class ctx ht hctx hne hv, Link.render_unopened hlinks,
    emphasise_value hcode (by decide) (by decide) (by decide) (ht _ (by decide)) (by decide)]

/-! ## Both -/

/-- The value in the tag of a link or of a span comes out as it was written exactly if nothing in it is
enclosed by markers.  Letters are no signs, so this is about every label of letters. -/
theorem render_attribute_eq_iff (aliases : Table) (ht : ∀ c ∈ signs, c ∉ t) :
    (∀ u : Text, Text.strip u = u → Link.isAddress u = true → (∀ c ∈ addressSigns, c ∉ u) →
      render { aliases } ("[" ++ t ++ "](" ++ u ++ ")") =
        "<a href=\"" ++ Emphasis.render (Html.escape u) ++ "\">" ++ t ++ "</a>" ∧
      (render { aliases } ("[" ++ t ++ "](" ++ u ++ ")") =
        "<a href=\"" ++ Html.escape u ++ "\">" ++ t ++ "</a>" ↔ Unmarked u)) ∧
    ∀ v : Text, v ≠ [] → (∀ c ∈ classSigns, c ∉ v) →
      render { aliases } ("@(class=\"" ++ v ++ "\")\x7b" ++ t ++ "\x7d") =
        "<span class=\"" ++ Emphasis.render v ++ "\">" ++ t ++ "</span>" ∧
      (render { aliases } ("@(class=\"" ++ v ++ "\")\x7b" ++ t ++ "\x7d") =
        "<span class=\"" ++ v ++ "\">" ++ t ++ "</span>" ↔ Unmarked v) := by
  constructor
  · intro u hstrip haddress hu
    have hslash : '\\' ∉ Html.escape u := by
      rw [Html.mem_escape_iff (by decide) (by decide)]
      exact hu _ (by decide)
    have hlink := render_link { aliases } ht hstrip haddress hu
    refine ⟨hlink, ?_⟩
    rw [hlink, append_value_inj, render_eq_self_iff hslash, unmarked_escape_iff (hu _ (by decide))]
  · intro v hne hv
    have hspan := render_span { aliases } ht rfl hne hv
    refine ⟨hspan, ?_⟩
    rw [hspan, append_value_inj, render_eq_self_iff (hv _ (by decide))]

/-- A single asterisk has no partner, so it stays. -/
theorem render_attribute_eq_iff_single :
    (∀ c ∈ signs, c ∉ "label".toList) ∧
      render {} "[label](a.b/*x)" = "<a href=\"a.b/*x\">label</a>" ∧
      render {} "@(class=\"x *y\")\x7blabel\x7d" = "<span class=\"x *y\">label</span>" := by
  have ht : ∀ c ∈ signs, c ∉ "label".toList := by decide
  obtain ⟨hlinks, hspans⟩ := render_attribute_eq_iff .empty ht
  have hlink := (hlinks "a.b/*x" (by decide) (by decide) (by decide)).1
  have hspan := (hspans "x *y" (by decide) (by decide)).1
  exact ⟨ht, hlink.trans (by decide +kernel), hspan.trans (by decide +kernel)⟩

/-- Two of them enclose what is between, and the tag gets an element into it. -/
theorem attribute_with_markers_changes :
    (∀ c ∈ signs, c ∉ "t".toList) ∧
      Text.strip "a.b/*x*" = "a.b/*x*".toList ∧ Link.isAddress "a.b/*x*" = true ∧
      (∀ c ∈ addressSigns, c ∉ "a.b/*x*".toList) ∧
      render {} "[t](a.b/*x*)" = "<a href=\"a.b/<em>x</em>\">t</a>" ∧
      render {} "[t](a.b/*x*)" ≠ "<a href=\"" ++ Html.escape "a.b/*x*" ++ "\">" ++ "t" ++ "</a>" ∧
      (∀ c ∈ classSigns, c ∉ "a*b*c".toList) ∧
      render {} "@(class=\"a*b*c\")\x7bt\x7d" = "<span class=\"a<em>b</em>c\">t</span>" := by
  decide +kernel

end AtMark.Inline

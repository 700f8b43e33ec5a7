import AtMark.Proofs.Inline.CodeRegion

/-!
# `Proofs.Inline.CodeSpan`: where the first pass sees code

## What is proved

Code spans are what stands between a backtick and the next one that no backslash guards; the text between them only
loses backslashes, and at most one backtick is left without a partner, behind the last of them (`render_spans`).  If
the text has no tags of its own, the code spans are exactly the regions that later passes copy (`segments_html`).

## How

`Guarded` says of a text that each of its backticks stands behind a backslash.  A backslash takes the next character
with it, whatever that is, and the search for a closing backtick and the text outside code agree on this, although
outside code only three characters are written without their backslash (`unescape`).

`Reads s spans tail` says how the pass goes over a text: which code spans it finds, with the text before each of them,
and which text is left behind the last one.  Only in that text can a backtick open a span that is never closed, and
only one can, since the next one would close it (`Reads.tail_cases`).  Every text is read in one of these ways
(`exists_reads`), and the output follows by induction (`Reads.render_eq`).

## What is not

Texts with tags of code of their own, as far as regions go: there a tag in the text opens a region, too.  What the pass
writes is the same for them.
-/

namespace AtMark.CodeSpan

open CodeRegion

/-- Each backtick of the text stands behind a backslash, and no backslash at its end reaches further. -/
inductive Guarded : Text → Prop
  | nil : Guarded []
  | escaped {c : Char} {s : Text} : Guarded s → Guarded ('\\' :: c :: s)
  | plain {c : Char} {s : Text} : c ≠ '\\' → c ≠ '\x60' → Guarded s → Guarded (c :: s)

/-- Text outside code without the backslashes that make a backtick, a dollar sign or a backslash plain. -/
def unescape : Text → Text
  | [] => []
  | '\\' :: c :: cs => if isEscapable c then c :: unescape cs else '\\' :: c :: unescape cs
  | c :: cs => c :: unescape cs

/-- A code span with the text before it, both as they are written. -/
structure Span where
  lead : Text
  code : Text
deriving DecidableEq, Repr

/-- A span with the text before it in the source. -/
def Span.source (span : Span) : Text :=
  span.lead ++ '\x60' :: (span.code ++ ['\x60'])

/-- The same in the output, with a function applied to what is not code. -/
def Span.html (f : Text → Text) (span : Span) : Text :=
  f (unescape span.lead) ++ element span.code

/-- The pass goes over a text, finds these spans, and leaves this text behind the last of them. -/
inductive Reads : Text → List Span → Text → Prop
  | rest {tail : Text} : close? tail = none → Reads tail [] tail
  | unclosed {front back : Text} : Guarded front → close? back = none →
      Reads (front ++ '\x60' :: back) [] (front ++ '\x60' :: back)
  | span {lead code rest tail : Text} {spans : List Span} : Guarded lead → Guarded code → Reads rest spans tail →
      Reads (lead ++ '\x60' :: (code ++ '\x60' :: rest)) (⟨lead, code⟩ :: spans) tail

variable {c : Char} {s t u inner rest tail : Text} {spans : List Span}

/-! ## Guarded text -/

theorem pieces_escape (c : Char) (s : Text) : pieces ('\\' :: c :: s) =
    if isEscapable c then .plain c :: pieces s else .plain '\\' :: pieces (c :: s) := by
  rw [pieces]

theorem pieces_tick (s : Text) : pieces ('\x60' :: s) =
    match close? s with
    | some (inner, rest) => .code inner :: pieces rest
    | none => .plain '\x60' :: pieces s := by
  rw [pieces]
  split
  · next h => rw [h]
  · next h => rw [h]

theorem render_cons (hslash : c ≠ '\\') (htick : c ≠ '\x60') (s : Text) : render (c :: s) = c :: render s := by
  rw [render, pieces_cons hslash htick]
  rfl

theorem render_escape (c : Char) (s : Text) :
    render ('\\' :: c :: s) = unescape ['\\', c] ++ render s := by
  rw [render, pieces_escape, unescape]
  split
  · rfl
  · next hplain =>
    have hslash : c ≠ '\\' := by
      rintro rfl
      exact hplain rfl
    have htick : c ≠ '\x60' := by
      rintro rfl
      exact hplain rfl
    rw [pieces_cons hslash htick]
    rfl

theorem unescape_cons (hslash : c ≠ '\\') (s : Text) : unescape (c :: s) = c :: unescape s := by
  rw [unescape]
  rintro d cs rfl
  exact absurd rfl hslash

theorem unescape_escape (c : Char) (s : Text) :
    unescape ('\\' :: c :: s) = unescape ['\\', c] ++ unescape s := by
  rw [unescape, unescape]
  split
  · rfl
  · rfl

/-- What has no backtick of its own is only freed of backslashes, whatever follows it. -/
theorem Guarded.render_append (h : Guarded u) (s : Text) : render (u ++ s) = unescape u ++ render s := by
  induction h with
  | nil => rfl
  | @escaped c u _ ih =>
      rw [List.cons_append, List.cons_append, render_escape, ih, unescape_escape c u, List.append_assoc]
  | plain hslash htick _ ih =>
      rw [List.cons_append, render_cons hslash htick, ih, unescape_cons hslash]
      rfl

theorem Guarded.unescape_append (h : Guarded u) (s : Text) : unescape (u ++ s) = unescape u ++ unescape s := by
  induction h with
  | nil => rfl
  | @escaped c u _ ih =>
      rw [List.cons_append, List.cons_append, unescape_escape, ih, unescape_escape c u, List.append_assoc]
  | plain hslash _ _ ih =>
      rw [List.cons_append, unescape_cons hslash, ih, unescape_cons hslash]
      rfl

theorem Guarded.close?_append (h : Guarded u) (s : Text) : close? (u ++ '\x60' :: s) = some (u, s) := by
  induction h with
  | nil => rfl
  | escaped _ ih =>
      rw [List.cons_append, List.cons_append, close?, ih]
      rfl
  | plain hslash htick _ ih =>
      rw [List.cons_append, close?, ih]
      · rfl
      · rintro d cs rfl
        exact absurd rfl hslash
      · rintro rfl
        exact absurd rfl htick

theorem guarded_of_close? (h : close? s = some (inner, rest)) : Guarded inner := by
  fun_induction close? s generalizing inner rest with
  | case1 => cases h
  | case2 c cs ih =>
      obtain ⟨⟨i, r⟩, hi, heq⟩ := Option.map_eq_some_iff.mp h
      cases heq
      exact .escaped (ih hi)
  | case3 cs =>
      cases h
      exact .nil
  | case4 c cs hslash htick ih =>
      obtain ⟨⟨i, r⟩, hi, heq⟩ := Option.map_eq_some_iff.mp h
      cases heq
      refine .plain ?_ htick (ih hi)
      rintro rfl
      cases cs with
      | nil => cases hi
      | cons d cs => exact hslash d cs rfl rfl

theorem close?_eq_some_iff : close? s = some (inner, rest) ↔ s = inner ++ '\x60' :: rest ∧ Guarded inner := by
  constructor
  · exact fun h => ⟨eq_of_close? h, guarded_of_close? h⟩
  · rintro ⟨rfl, h⟩
    exact h.close?_append rest

theorem render_of_close?_eq_none (h : close? s = none) : render s = unescape s := by
  fun_induction close? s with
  | case1 => rw [render, pieces]; rfl
  | case2 c cs ih =>
      rw [render_escape, unescape_escape c cs, ih (Option.map_eq_none_iff.mp h)]
  | case3 cs => cases h
  | case4 c cs hslash htick ih =>
      have hmore := ih (Option.map_eq_none_iff.mp h)
      by_cases hc : c = '\\'
      · -- A backslash at the end of the text stands for itself.
        cases cs with
        | nil =>
            rw [hc, render, pieces, pieces]
            · rfl
            · intro d ds _ hnil
              exact absurd hnil.symm (List.cons_ne_nil d ds)
            · intro htick
              exact absurd htick (by decide)
        | cons d cs => exact absurd rfl (hslash d cs hc)
      · rw [render_cons hc htick, unescape_cons hc, hmore]

theorem render_unclosed (h : close? s = none) : render ('\x60' :: s) = '\x60' :: unescape s := by
  rw [render, pieces_tick, h]
  exact congrArg ('\x60' :: ·) (render_of_close?_eq_none h)

theorem render_span_append (h : Guarded u) (s : Text) :
    render ('\x60' :: (u ++ '\x60' :: s)) = element u ++ render s := by
  rw [render, pieces_tick, h.close?_append]
  rfl

/-! ## Going over a text -/

/-- Every text is read in one of the ways. -/
theorem exists_reads (s : Text) : ∃ spans tail, Reads s spans tail := by
  cases hopen : close? s with
  | none => exact ⟨[], s, .rest hopen⟩
  | some found =>
      obtain ⟨lead, behind⟩ := found
      obtain ⟨rfl, hlead⟩ := close?_eq_some_iff.mp hopen
      cases hclose : close? behind with
      | none => exact ⟨[], _, .unclosed hlead hclose⟩
      | some found =>
          obtain ⟨code, rest⟩ := found
          obtain ⟨rfl, hcode⟩ := close?_eq_some_iff.mp hclose
          obtain ⟨spans, tail, hreads⟩ := exists_reads rest
          exact ⟨⟨lead, code⟩ :: spans, tail, .span hlead hcode hreads⟩
termination_by s.length
decreasing_by
  have hlength := congrArg List.length ‹s = _›
  have hbehind := congrArg List.length ‹behind = _›
  simp only [List.length_append, List.length_cons] at hlength hbehind
  omega

theorem Reads.source_eq (h : Reads s spans tail) : s = spans.flatMap Span.source ++ tail := by
  induction h with
  | rest _ => rfl
  | unclosed _ _ => rfl
  | @span lead code rest tail spans _ _ _ ih =>
      rw [List.flatMap_cons, Span.source, ih]
      simp only [List.append_assoc, List.cons_append, List.nil_append]

theorem Reads.guarded (h : Reads s spans tail) : ∀ span ∈ spans, Guarded span.lead ∧ Guarded span.code := by
  induction h with
  | rest _ => exact nofun
  | unclosed _ _ => exact nofun
  | span hlead hcode _ ih => exact List.forall_mem_cons.mpr ⟨⟨hlead, hcode⟩, ih⟩

/-- Behind the last span there is at most one backtick that is not guarded, and what follows it has none. -/
theorem Reads.tail_cases (h : Reads s spans tail) :
    close? tail = none ∨ ∃ front back, tail = front ++ '\x60' :: back ∧ Guarded front ∧ close? back = none := by
  induction h with
  | rest htail => exact .inl htail
  | @unclosed front back hfront hback => exact .inr ⟨front, back, rfl, hfront, hback⟩
  | span _ _ _ ih => exact ih

theorem Reads.render_eq (h : Reads s spans tail) : render s = spans.flatMap (Span.html id) ++ unescape tail := by
  induction h with
  | rest htail => exact render_of_close?_eq_none htail
  | unclosed hfront hback =>
      rw [hfront.render_append, render_unclosed hback, hfront.unescape_append, unescape_cons (by decide)]
      rfl
  | span hlead hcode _ ih =>
      rw [hlead.render_append, render_span_append hcode, ih, List.flatMap_cons, Span.html]
      simp only [id, List.append_assoc]

/-! ## The regions of the output -/

theorem unescape_subset (s : Text) : unescape s ⊆ s := by
  fun_induction unescape s with
  | case1 => exact List.Subset.refl _
  | case2 c cs _ ih => exact List.subset_cons_of_subset _ (List.cons_subset_cons c ih)
  | case3 c cs _ ih => exact List.cons_subset_cons _ (List.cons_subset_cons c ih)
  | case4 c cs _ ih => exact List.cons_subset_cons c ih

/-- Between texts without tags, code elements are regions, and the texts are what stands outside. -/
theorem segments_html (hspans : ∀ span ∈ spans, '<' ∉ span.lead) (htail : '<' ∉ tail) :
    segments (spans.flatMap (Span.html id) ++ unescape tail) =
      spans.flatMap (fun span => [.outside (unescape span.lead), .region (element span.code)]) ++
        if unescape tail = [] then [] else [.outside (unescape tail)] := by
  induction spans with
  | nil => exact segments_plain fun h => htail (unescape_subset tail h)
  | cons span spans ih =>
      obtain ⟨hlead, hspans⟩ := List.forall_mem_cons.mp hspans
      have hlead' : '<' ∉ unescape span.lead := fun h => hlead (unescape_subset span.lead h)
      have hcode : '<' ∉ Html.escape span.code := Html.not_mem_escape (by decide) (by decide)
      rw [List.flatMap_cons, Span.html, id, List.append_assoc, List.append_assoc, element,
        segments_element hlead' hcode, ih hspans]
      rfl

/-- Code spans are what stands between a backtick and the next one that no backslash guards; the text between them only
loses backslashes, and at most one backtick, behind the last of them, is left without a partner.  If the text has no tags
of its own, the later passes copy exactly these spans and rewrite exactly the texts between them and the one behind the
last, unless that one is empty. -/
theorem render_spans (htag : '<' ∉ s) :
    ∃ (spans : List Span) (tail : Text), s = spans.flatMap Span.source ++ tail ∧
      (∀ span ∈ spans, Guarded span.lead ∧ Guarded span.code) ∧
      (close? tail = none ∨ ∃ front back, tail = front ++ '\x60' :: back ∧ Guarded front ∧ close? back = none ∧
        unescape tail = unescape front ++ '\x60' :: unescape back) ∧
      render s = spans.flatMap (Span.html id) ++ unescape tail ∧
      ∀ f, mapOutside f (render s) =
        spans.flatMap (Span.html f) ++ if unescape tail = [] then [] else f (unescape tail) := by
  obtain ⟨spans, tail, hreads⟩ := exists_reads s
  have hsource := hreads.source_eq
  refine ⟨spans, tail, hsource, hreads.guarded, ?_, hreads.render_eq, fun f => ?_⟩
  · rcases hreads.tail_cases with htail | ⟨front, back, rfl, hfront, hback⟩
    · exact .inl htail
    · refine .inr ⟨front, back, rfl, hfront, hback, ?_⟩
      rw [hfront.unescape_append, unescape_cons (by decide)]
  · rw [hsource, List.mem_append, not_or] at htag
    have hspans : ∀ span ∈ spans, '<' ∉ span.lead := fun span hspan h =>
      htag.1 (List.mem_flatMap.mpr ⟨span, hspan, List.mem_append_left _ h⟩)
    rw [mapOutside, hreads.render_eq, segments_html hspans htag.2, List.flatMap_append, List.flatMap_assoc]
    congr 1
    · refine congrArg (List.flatMap · spans) (funext fun span => ?_)
      rw [List.flatMap_cons, List.flatMap_cons, List.flatMap_nil, List.append_nil]
      rfl
    · split
      · rfl
      · exact List.append_nil _

/-- A guarded backtick on either side of the opening one, an escaped sign, and a backtick without a partner. -/
theorem render_spans_unclosed :
    '<' ∉ "a\\\x60b \x60x \\\x60 *y*\x60 \\$ \x60c".toList ∧
      render "a\\\x60b \x60x \\\x60 *y*\x60 \\$ \x60c" = "a\x60b <code>x \\\x60 *y*</code> $ \x60c" ∧
      ∃ (spans : List Span) (tail : Text),
        "a\\\x60b \x60x \\\x60 *y*\x60 \\$ \x60c" = spans.flatMap Span.source ++ tail ∧
          render "a\\\x60b \x60x \\\x60 *y*\x60 \\$ \x60c" = spans.flatMap (Span.html id) ++ unescape tail := by
  have htag : '<' ∉ "a\\\x60b \x60x \\\x60 *y*\x60 \\$ \x60c".toList := by decide
  obtain ⟨spans, tail, hsource, -, -, hrender, -⟩ := render_spans htag
  exact ⟨htag, by decide +kernel, spans, tail, hsource, hrender⟩

end AtMark.CodeSpan

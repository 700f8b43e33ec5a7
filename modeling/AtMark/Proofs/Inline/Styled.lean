import AtMark.Proofs.Inline.CodeRegion
import AtMark.Proofs.Inline.StyleSpan

/-!
# `Proofs.Inline.Styled`: what the style pass leaves alone

## What is proved

`IsSpan` says what a complete span looks like in front of a rest, and reading finds exactly that
(`read?_eq_some_iff`).  `Styled` says of a text, behind the text before it, what the style pass makes of it: complete
spans outside code become elements, and nothing that begins in the text between them is a complete span outside code.
Every text is rendered so (`render_styled`).

## How

The loop comes to the text between two spans in pieces, cut at openings in code and at openings without a complete
span.  Such a piece can be put in front of what the pass makes of the rest (`Styled.prepend`), and so every run of the
loop keeps to `Styled` (`styled_piecesAfter`).  What stands before is part of the statement all along, since whether
an opening is in code is decided by the whole text before it.

## What is not

Spans inside spans.  The body of a span is written into its element as it stands, and is not searched for openings.
-/

namespace AtMark

open Search

namespace Quotation

variable {stop : Text → Bool} {here : Quotation} {depth : Int} {s before rest : Text}

theorem stop_of_breakWhere (h : breakWhere stop here s = some (before, rest)) : stop rest = true := by
  induction s generalizing here before with
  | nil => cases h
  | cons c cs ih =>
      rw [breakWhere] at h
      split at h
      · next hstop =>
        cases h
        exact (Bool.and_eq_true_iff.mp hstop).2
      · obtain ⟨⟨b, r⟩, hb, heq⟩ := Option.map_eq_some_iff.mp h
        cases heq
        exact ih hb

theorem head?_of_breakAtBrace (h : breakAtBrace depth here s = some (before, rest)) : rest.head? = some '}' := by
  induction s generalizing here depth before with
  | nil => cases h
  | cons c cs ih =>
      rw [breakAtBrace] at h
      split at h
      · next hstop =>
        cases h
        simp only [Bool.and_eq_true, beq_iff_eq] at hstop
        exact congrArg some hstop.1.2
      · obtain ⟨⟨b, r⟩, hb, heq⟩ := Option.map_eq_some_iff.mp h
        cases heq
        exact ih hb

end Quotation

namespace StyleSpan

open Quotation
open Token (endMarker)

/-! ## Complete spans -/

/-- The ways to open a span. -/
def openings : List Text :=
  ["@(", "@style("]

/-- An opening stands at the start of the text. -/
def Opens (s : Text) : Prop :=
  ∃ opening ∈ openings, opening <+: s

/-- The body of a span as it is written in front of a rest, and the text in it: in braces, or in front of an end
marker. -/
inductive IsBody (rest : Text) : Text → Text → Prop
  | braces {body : Text} : breakAtClosingBrace ('{' :: (body ++ '}' :: rest)) = some ('{' :: body, '}' :: rest) →
      IsBody rest ('{' :: (body ++ ['}'])) body
  | marker {body : Text} : (body ++ (endMarker ++ rest)).head? ≠ some '{' →
      breakAtEnd (body ++ (endMarker ++ rest)) = some (body, endMarker ++ rest) → IsBody rest (body ++ endMarker) body

/-- A complete span as it is written in front of a rest, with its attribute list and its body. -/
inductive IsSpan (rest : Text) : Text → Text → Text → Prop
  | intro {opening raw gap written body : Text} : opening ∈ openings →
      breakAtParen (raw ++ ')' :: (gap ++ (written ++ rest))) = some (raw, ')' :: (gap ++ (written ++ rest))) →
      (∀ c ∈ gap, isGap c = true) → (∀ c ∈ (written ++ rest).head?, isGap c = false) → IsBody rest written body →
      IsSpan rest (opening ++ (raw ++ ')' :: (gap ++ written))) raw body

variable {s source raw body rest : Text}

theorem afterOpening?_eq_some_iff {list : Text} :
    afterOpening? s = some list ↔ ∃ opening ∈ openings, s = opening ++ list := by
  constructor
  · intro h
    unfold afterOpening? at h
    split at h
    · next found hfound =>
      cases h
      exact ⟨_, List.mem_cons_self, skip?_eq_some_iff.mp hfound⟩
    · exact ⟨_, List.mem_cons_of_mem _ List.mem_cons_self, skip?_eq_some_iff.mp h⟩
  · rintro ⟨opening, hopening, rfl⟩
    rcases List.mem_pair.mp hopening with rfl | rfl
    · rfl
    · rfl

theorem opens_iff : Opens s ↔ (afterOpening? s).isSome := by
  rw [Option.isSome_iff_exists]
  constructor
  · rintro ⟨opening, hopening, list, rfl⟩
    exact ⟨list, afterOpening?_eq_some_iff.mpr ⟨opening, hopening, rfl⟩⟩
  · rintro ⟨list, h⟩
    obtain ⟨opening, hopening, rfl⟩ := afterOpening?_eq_some_iff.mp h
    exact ⟨opening, hopening, List.prefix_append opening list⟩

theorem isBody_of_readBody? (h : readBody? s = some (body, rest)) :
    ∃ written, s = written ++ rest ∧ IsBody rest written body := by
  cases hs : s.head? == some '{' with
  | true =>
      obtain ⟨t, rfl⟩ := List.head?_eq_some_iff.mp (beq_iff_eq.mp hs)
      obtain ⟨⟨inside, behind⟩, hbreak, heq⟩ := Option.map_eq_some_iff.mp h
      cases heq
      obtain ⟨rest, rfl⟩ := List.head?_eq_some_iff.mp (head?_of_breakAtBrace hbreak)
      have hsource := eq_of_breakAtBrace hbreak
      -- The text begins with an opening brace and the rest with a closing one, so the two are not the same.
      cases inside with
      | nil => cases hsource
      | cons c inside =>
          cases hsource
          exact ⟨'{' :: (inside ++ ['}']), by simp, .braces hbreak⟩
  | false =>
      have hhead := beq_eq_false_iff_ne.mp hs
      rw [readBody?_of_head hhead] at h
      obtain ⟨⟨inside, behind⟩, hbreak, heq⟩ := Option.map_eq_some_iff.mp h
      obtain ⟨found, hfound⟩ := Option.isSome_iff_exists.mp (stop_of_breakWhere hbreak)
      obtain rfl := skip?_eq_some_iff.mp hfound
      obtain ⟨rfl, hrest⟩ := Prod.mk.inj heq
      obtain rfl : found = rest := List.drop_left.symm.trans hrest
      obtain rfl := eq_of_breakWhere hbreak
      exact ⟨inside ++ endMarker, (List.append_assoc ..).symm, .marker hhead hbreak⟩

theorem readBody?_of_isBody {written : Text} (h : IsBody rest written body) :
    readBody? (written ++ rest) = some (body, rest) := by
  cases h with
  | braces hbreak =>
      have hwritten : '{' :: (body ++ ['}']) ++ rest = '{' :: (body ++ '}' :: rest) := by simp
      rw [hwritten]
      show (breakAtClosingBrace _).map _ = _
      rw [hbreak]
      rfl
  | marker hhead hbreak =>
      rw [List.append_assoc, readBody?_of_head hhead, hbreak]
      exact congrArg (fun t => some (body, t)) List.drop_left

/-- Reading finds a span exactly where a complete one stands. -/
theorem read?_eq_some_iff :
    read? s = some ⟨raw, body, rest⟩ ↔ ∃ source, s = source ++ rest ∧ IsSpan rest source raw body := by
  constructor
  · intro h
    obtain ⟨list, hlist, h⟩ := Option.bind_eq_some_iff.mp h
    obtain ⟨⟨raw', behind⟩, hraw, h⟩ := Option.bind_eq_some_iff.mp h
    obtain ⟨⟨body', rest'⟩, hbody, h⟩ := Option.bind_eq_some_iff.mp h
    cases h
    obtain ⟨opening, hopening, rfl⟩ := afterOpening?_eq_some_iff.mp hlist
    obtain ⟨behind, rfl⟩ := List.head?_eq_some_iff.mp (beq_iff_eq.mp (stop_of_breakWhere hraw))
    obtain ⟨written, hwritten, hwrittenBody⟩ := isBody_of_readBody? hbody
    obtain rfl := eq_of_breakWhere hraw
    rw [List.drop_one, List.tail_cons] at hwritten
    have hgap : ∀ c ∈ behind.takeWhile isGap, isGap c = true := fun c hc => List.mem_takeWhile_imp hc
    have hhead := Text.head?_dropWhile isGap behind
    have hsplit : behind.takeWhile isGap ++ behind.dropWhile isGap = behind := List.takeWhile_append_dropWhile
    rw [hwritten] at hhead hsplit
    rw [← hsplit] at hraw ⊢
    exact ⟨_, by simp, .intro hopening hraw hgap hhead hwrittenBody⟩
  · rintro ⟨source, rfl, h⟩
    cases h with
    | @intro opening _ gap written _ hopening hraw hgap hhead hbody =>
      have hgaps : (gap ++ (written ++ rest)).dropWhile isGap = written ++ rest :=
        Text.dropWhile_append_of_head hgap hhead
      have hsource : opening ++ (raw ++ ')' :: (gap ++ written)) ++ rest =
          opening ++ (raw ++ ')' :: (gap ++ (written ++ rest))) := by simp
      rw [hsource]
      refine read?_of_parts (afterOpening?_eq_some_iff.mpr ⟨opening, hopening, rfl⟩) hraw ?_
      rw [List.drop_one, List.tail_cons, hgaps]
      exact readBody?_of_isBody hbody

/-! ## Between the spans -/

/-- The place between two texts is inside code. -/
def InCode (before rest : Text) : Prop :=
  (CodeRegion.endOf? (before ++ rest) before.length).isSome

/-- Of the openings that begin in `lead`, none is outside code and begins a complete span. -/
def Untouched (before lead rest : Text) : Prop :=
  ∀ front back, lead = front ++ back → back ≠ [] → Opens (back ++ rest) →
    InCode (before ++ front) (back ++ rest) ∨ read? (back ++ rest) = none

/-- What the pass makes of a text that stands behind another one: the text goes from one complete span outside code to
the next, and only these spans change. -/
inductive Styled (ctx : SpanContext) : Text → Text → Text → Prop
  | last {before lead : Text} : Untouched before lead [] → Styled ctx before lead lead
  | span {before lead source raw body rest html : Text} : Untouched before lead (source ++ rest) →
      ¬InCode (before ++ lead) (source ++ rest) → IsSpan rest source raw body →
      Styled ctx (before ++ lead ++ source) rest html →
        Styled ctx before (lead ++ (source ++ rest))
          (lead ++ ((SpanAttributes.parse raw).openTag ctx ++ body ++ "</span>" ++ html))

variable {ctx : SpanContext} {before lead html t : Text}

theorem inCode_iff : InCode before rest ↔ (CodeRegion.ahead? before rest).isSome := by
  rw [InCode, CodeRegion.endOf?, List.take_left, List.drop_left, Option.isSome_map]

theorem Untouched.append (h : Untouched before t (lead ++ rest)) (h' : Untouched (before ++ t) lead rest) :
    Untouched before (t ++ lead) rest := by
  intro front back heq hback hopens
  rcases List.append_eq_append_iff.mp heq with ⟨u, rfl, rfl⟩ | ⟨u, rfl, rfl⟩
  · have hleft := h' u back rfl hback hopens
    rwa [List.append_assoc] at hleft
  · cases u with
    | nil =>
        have hleft := h' [] lead rfl hback hopens
        simpa using hleft
    | cons c u =>
        rw [List.append_assoc] at hopens ⊢
        exact h front (c :: u) rfl (List.cons_ne_nil c u) hopens

/-- Text in which no complete span begins outside code can be put in front. -/
theorem Styled.prepend (h : Untouched before t rest) (hrest : Styled ctx (before ++ t) rest html) :
    Styled ctx before (t ++ rest) (t ++ html) := by
  cases hrest with
  | last hlead => exact .last (.append (by rwa [List.append_nil]) hlead)
  | @span _ lead source raw body rest html hlead hcode hspan hstyled =>
      rw [← List.append_assoc t, ← List.append_assoc t]
      refine .span (.append h hlead) ?_ hspan ?_
      · rwa [← List.append_assoc]
      · rwa [← List.append_assoc before]

theorem head?_of_opens (h : Opens s) : s.head? = some '@' := by
  obtain ⟨list, hlist⟩ := Option.isSome_iff_exists.mp (opens_iff.mp h)
  exact head?_of_afterOpening? hlist

/-- The search for an opening finds one no later than any other one. -/
theorem exists_breakAtOpening (h : Opens s) (front : Text) :
    ∃ lead opening, breakAtOpening (front ++ s) = some (lead, opening) ∧ lead <+: front := by
  induction front with
  | nil => exact ⟨[], s, breakAtOpening_of_isSome (opens_iff.mp h), List.prefix_refl []⟩
  | cons c front ih =>
      rw [List.cons_append, breakAtOpening]
      split
      · exact ⟨[], _, rfl, List.nil_prefix⟩
      · obtain ⟨lead, opening, hfound, hlead⟩ := ih
        rw [hfound]
        exact ⟨c :: lead, opening, rfl, (List.prefix_cons_inj c).mpr hlead⟩

theorem untouched_of_breakAtOpening_eq_none (h : breakAtOpening s = none) (before : Text) : Untouched before s [] := by
  rintro front back rfl - hopens
  rw [List.append_nil] at hopens
  obtain ⟨lead, opening, hfound, -⟩ := exists_breakAtOpening hopens front
  rw [h] at hfound
  cases hfound

theorem untouched_of_breakAtOpening {opening : Text} (h : breakAtOpening s = some (lead, opening)) (before : Text) :
    Untouched before lead opening := by
  rintro front back rfl hback hopens
  obtain ⟨lead, opening', hfound, hlead⟩ := exists_breakAtOpening hopens front
  rw [← List.append_assoc, ← eq_of_breakAtOpening h, h] at hfound
  -- The opening that was found would stand behind this one.
  have hlength := hlead.length_le
  rw [← (Prod.mk.inj (Option.some.inj hfound)).1, List.length_append] at hlength
  have hpos := List.length_pos_iff.mpr hback
  omega

/-- What is left of a region is in code up to its end. -/
theorem untouched_of_ahead? {inside : Text} (h : CodeRegion.ahead? before (inside ++ rest) = some (inside, rest)) :
    Untouched before inside rest := by
  rintro front back rfl hback hopens
  have hat : back.head? = some '@' := by
    rw [← head?_of_opens hopens, List.head?_append_of_ne_nil _ hback]
  obtain ⟨back, rfl⟩ := List.head?_eq_some_iff.mp hat
  exact .inl (inCode_iff.mpr (Option.isSome_of_eq_some (CodeRegion.ahead?_within h)))

theorem styled_piecesAfter (ctx : SpanContext) (before s : Text) :
    Styled ctx before s ((piecesAfter before s).flatMap (Piece.html ctx)) := by
  fun_induction piecesAfter before s with
  | case1 before s hopen =>
      rw [List.flatMap_cons, List.flatMap_nil, List.append_nil]
      exact .last (untouched_of_breakAtOpening_eq_none hopen before)
  | case2 before s lead opening hopen inside rest hahead ih =>
      have hlead := untouched_of_breakAtOpening hopen before
      obtain rfl := CodeRegion.eq_of_ahead? hahead
      rw [List.flatMap_cons, eq_of_breakAtOpening hopen, ← List.append_assoc]
      refine .prepend (hlead.append (untouched_of_ahead? hahead)) ?_
      rwa [← List.append_assoc]
  | case3 before s lead opening hopen hahead hread ih =>
      have hlead := untouched_of_breakAtOpening hopen before
      obtain ⟨rest, rfl⟩ := List.head?_eq_some_iff.mp (head?_of_breakAtOpening hopen)
      have hat : Untouched (before ++ lead) ['@'] rest := by
        intro front back heq hback _
        cases front with
        | nil =>
            obtain rfl : ['@'] = back := heq
            exact .inr hread
        | cons c front =>
            have hnil := (List.append_eq_nil_iff.mp (List.cons.inj heq).2.symm).2
            exact absurd hnil hback
      rw [List.flatMap_cons, eq_of_breakAtOpening hopen, List.append_cons]
      refine .prepend (hlead.append hat) ?_
      rwa [← List.append_assoc]
  | case4 before s lead opening hopen hahead span hread source ih =>
      have hlead := untouched_of_breakAtOpening hopen before
      obtain ⟨written, rfl, hspan⟩ := read?_eq_some_iff.mp hread
      have hsource : source = written := by
        simp [source]
      have hcode : ¬InCode (before ++ lead) (written ++ span.rest) := by
        rw [inCode_iff, hahead]
        exact Bool.false_ne_true
      rw [hsource] at ih ⊢
      rw [List.flatMap_cons, List.flatMap_cons, eq_of_breakAtOpening hopen]
      exact .span hlead hcode hspan ih

/-- The pass changes complete spans outside code and nothing else. -/
theorem render_styled (ctx : SpanContext) (s : Text) : Styled ctx [] s (render ctx s) :=
  styled_piecesAfter ctx [] s

end StyleSpan
end AtMark

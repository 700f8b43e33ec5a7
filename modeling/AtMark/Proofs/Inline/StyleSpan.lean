import AtMark.Inline.StyleSpan
import AtMark.Proofs.Inline.Code

/-!
# `Proofs.Inline.StyleSpan`: reading a style span

The searches of the style pass go over what they do not stop at, a quotation as a whole (`breakWhere_plain`,
`breakWhere_quoted`).  From these two follows how a span with a quoted class value is read, whatever that
value is, and what it becomes (`StyleSpan.render_class`).

Where the only at sign is the one that a text begins with, all depends on whether a span is complete there: if
not, the text is left as it is, and otherwise it begins with a tag (`StyleSpan.render_of_read?_none`,
`StyleSpan.head?_render_of_read?`).

A span is read in four steps, the opening, the end of the list, the list, and the body, and `read?_of_parts` puts them
together.  Whether the class value is written as classes or as a style is decided by the value and an option
(`openTag_value`); the statements here say which of the two, or leave it open where it does not matter.  What the pass
leaves alone in a text of any number of spans is in `Proofs.Inline.Styled`.
-/

namespace AtMark

open Search

/-! ## Searching outside quotations -/

namespace Quotation

open Text (isQuote)

variable {stop : Text → Bool} {s t : Text} {q : Char}

theorem breakWhere_plain (hquote : ∀ c ∈ s, isQuote c = false)
    (hstop : ∀ c ∈ s, ∀ rest, stop (c :: rest) = false) (t : Text) :
    breakWhere stop outside (s ++ t) =
      (breakWhere stop outside t).map fun found => (s ++ found.1, found.2) := by
  induction s with
  | nil => exact (Option.map_id' ..).symm
  | cons c s ih =>
      obtain ⟨hc, hs⟩ := List.forall_mem_cons.mp hquote
      obtain ⟨hcstop, hsstop⟩ := List.forall_mem_cons.mp hstop
      have hnext : outside.next c = outside := by
        rw [next, hc]
        rfl
      rw [List.cons_append, breakWhere, hcstop, Bool.and_false, if_neg Bool.false_ne_true, hnext,
        ih hs hsstop, Option.map_map]
      rfl

theorem breakWhere_inside (hne : q ≠ '\\') (hq : q ∉ s) (hslash : '\\' ∉ s) (t : Text) :
    breakWhere stop (inside q) (s ++ q :: t) =
      (breakWhere stop outside t).map fun found => (s ++ q :: found.1, found.2) := by
  have hopen : ∀ c, (inside q).isOpen c = false := fun _ => rfl
  induction s with
  | nil =>
      have hnext : (inside q).next q = outside := by
        rw [next, if_neg hne, if_pos rfl]
      rw [List.nil_append, breakWhere, hopen, Bool.false_and, if_neg Bool.false_ne_true, hnext]
      rfl
  | cons c s ih =>
      rw [List.mem_cons, not_or] at hq hslash
      have hnext : (inside q).next c = inside q := by
        rw [next, if_neg (Ne.symm hslash.1), if_neg (Ne.symm hq.1)]
      rw [List.cons_append, breakWhere, hopen, Bool.false_and, if_neg Bool.false_ne_true, hnext,
        ih hq.2 hslash.2, Option.map_map]
      rfl

theorem ne_backslash_of_isQuote (h : isQuote q = true) : q ≠ '\\' := by
  rintro rfl
  exact absurd h (by decide)

theorem breakWhere_quoted (hquote : isQuote q = true) (hq : q ∉ s) (hslash : '\\' ∉ s) (t : Text) :
    breakWhere stop outside (q :: (s ++ q :: t)) =
      (breakWhere stop outside t).map fun found => (q :: (s ++ q :: found.1), found.2) := by
  have hnext : outside.next q = inside q := by
    rw [next, hquote]
    rfl
  have hopen : outside.isOpen q = false := by
    rw [isOpen, hquote]
    rfl
  rw [breakWhere, hopen, Bool.false_and, if_neg Bool.false_ne_true, hnext,
    breakWhere_inside (ne_backslash_of_isQuote hquote) hq hslash, Option.map_map]
  rfl

/-- The characters that a search for a closing brace reads. -/
def braceSigns : Text := "{}\"'"

theorem breakAtClosingBrace_plain (hs : ∀ c ∈ braceSigns, c ∉ s) (t : Text) :
    breakAtClosingBrace ('{' :: (s ++ '}' :: t)) = some ('{' :: s, '}' :: t) := by
  have hone : breakAtBrace 1 outside (s ++ '}' :: t) = some (s, '}' :: t) := by
    induction s with
    | nil => rfl
    | cons c s ih =>
        have hrest : ∀ d ∈ braceSigns, d ∉ s := fun d hd h => hs d hd (List.mem_cons_of_mem c h)
        have hsigns : ∀ d ∈ braceSigns, (c == d) = false := by
          intro d hd
          rw [beq_eq_false_iff_ne]
          rintro rfl
          exact hs c hd List.mem_cons_self
        have hquote : isQuote c = false := by
          rw [isQuote, hsigns '"' (by decide), hsigns '\'' (by decide), Bool.or_false]
        have hopen := beq_eq_false_iff_ne.mp (hsigns '{' (by decide))
        have hclose := hsigns '}' (by decide)
        have hdepth : outside.depthAfter 1 c = 1 := by
          unfold depthAfter
          rw [if_neg hopen, if_neg (beq_eq_false_iff_ne.mp hclose), ite_self]
        have hnext : outside.next c = outside := by
          rw [next, hquote]
          rfl
        rw [List.cons_append, breakAtBrace, hclose, Bool.and_false, Bool.false_and,
          if_neg Bool.false_ne_true, hdepth, hnext, ih hrest]
        rfl
  show (breakAtBrace 1 outside (s ++ '}' :: t)).map _ = _
  rw [hone]
  rfl

end Quotation

/-! ## One attribute -/

namespace SpanAttributes

variable {v : Text}

/-- Text without ampersands holds no entity, whatever is behind it. -/
theorem decodeQuotes_append {s : Text} (h : '&' ∉ s) (t : Text) : decodeQuotes (s ++ t) = s ++ decodeQuotes t := by
  -- Each entity as its first character and the others.
  show replaceAll ('&' :: "#34;".toList) _ (replaceAll ('&' :: "quot;".toList) _ (s ++ t)) = _
  rw [replaceAll_append h, replaceAll_append h]
  rfl

theorem decodeQuotes_eq_self {s : Text} (h : '&' ∉ s) : decodeQuotes s = s := by
  have hnil : decodeQuotes [] = [] := by
    rw [decodeQuotes, replaceAll_nil (by decide), replaceAll_nil (by decide)]
  have hall := decodeQuotes_append h []
  rwa [hnil, List.append_nil] at hall

/-- The items without the bookkeeping of termination. -/
theorem items_eq (s : Text) : items s =
    match s.dropWhile isSeparator with
    | [] => []
    | c :: cs =>
      if c = ')' then items cs
      else
        match (readKey c cs).2.dropWhile isSeparator with
        | [] => []
        | v :: vs => ((readKey c cs).1, (readValue v vs).1) :: items (readValue v vs).2 := by
  fun_cases items s with
  | case1 hnil => rw [hnil]
  | case2 cs hstart => simp only [hstart, if_pos]
  | case3 c cs hstart hc hvalue => simp only [hstart, if_neg hc, hvalue]
  | case4 c cs hstart hc v vs hvalue => simp only [hstart, if_neg hc, hvalue]

theorem items_nil : items [] = [] := by
  rw [items_eq]
  rfl

theorem items_cons {c d : Char} {s t rest key : Text} (hsep : isSeparator c = false) (hc : c ≠ ')')
    (hkey : readKey c s = (key, rest)) (hvalue : rest.dropWhile isSeparator = d :: t) :
    items (c :: s) = (key, (readValue d t).1) :: items (readValue d t).2 := by
  have hstart : (c :: s).dropWhile isSeparator = c :: s :=
    List.dropWhile_cons_of_neg (Bool.eq_false_iff.mp hsep)
  rw [items_eq, hstart]
  simp only [if_neg hc, hkey, hvalue]

/-- The list of a span with nothing but a quoted class value. -/
def classList (v : Text) : Text :=
  "class=" ++ '"' :: (v ++ ['"'])

/-- A list that begins with a quoted class value holds nothing else: if the quotation is not closed, it runs to the
end. -/
theorem items_class (hquote : '"' ∉ v) {tail : Text} (htail : tail = [] ∨ tail = ['"']) :
    items ("class=" ++ '"' :: (v ++ tail)) = [("class".toList, v)] := by
  have hinner : ∀ c ∈ v, (c != '"') = true := by
    intro c hc
    rw [bne_iff_ne]
    rintro rfl
    exact hquote hc
  have hend : ∀ c ∈ tail.head?, (c != '"') = false := by
    rcases htail with rfl | rfl
    · exact nofun
    · rintro _ ⟨⟩
      rfl
  have hbehind : tail.drop 1 = [] := by
    rcases htail with rfl | rfl
    · rfl
    · rfl
  have hvalue : readValue '"' (v ++ tail) = (v, []) := by
    rw [readValue, if_pos (by decide), Text.takeWhile_append_of_head hinner hend,
      Text.dropWhile_append_of_head hinner hend, hbehind]
  have hkey : readKey 'c' ("lass=\"" ++ (v ++ tail)) = ("class".toList, '"' :: (v ++ tail)) := rfl
  have hstart : ('"' :: (v ++ tail)).dropWhile isSeparator = '"' :: (v ++ tail) := rfl
  have hfirst := items_cons (by decide) (by decide) hkey hstart
  rw [hvalue, items_nil] at hfirst
  exact hfirst

theorem parse_class (hquote : '"' ∉ v) (hamp : '&' ∉ v) :
    parse (classList v) = { classes := some v } := by
  have hquoted : '&' ∉ '"' :: (v ++ ['"']) := by
    simp [hamp]
  have hplain : '&' ∉ classList v := List.not_mem_append (by decide) hquoted
  have hitems : items (classList v) = [("class".toList, v)] := items_class hquote (.inr rfl)
  rw [parse, decodeQuotes_eq_self hplain, hitems]
  rfl

theorem openTag_value (ctx : SpanContext) (v : Text) :
    openTag ctx { classes := some v } =
      "<span" ++ nonemptyAttr (if isMoved ctx v then "style" else "class") (some v) ++ ">" := by
  unfold openTag
  cases hctx : isMoved ctx v with
  | true =>
      have hclass : classText ctx { classes := some v } = none := if_pos hctx
      have hstyle : styleText ctx { classes := some v } = some v := by
        simp only [styleText, Option.filter_some, hctx, if_true]
      simp only [hclass, hstyle, nonemptyAttr.eq_1, optionalAttr, List.append_nil, if_true]
  | false =>
      have hclass : classText ctx { classes := some v } = some v := if_neg (Bool.eq_false_iff.mp hctx)
      have hstyle : styleText ctx { classes := some v } = none := by
        simp only [styleText, Option.filter_some, hctx, Bool.false_eq_true, if_false]
      simp only [hclass, hstyle, nonemptyAttr.eq_1, optionalAttr, List.append_nil, Bool.false_eq_true, if_false]

theorem openTag_class {ctx : SpanContext} (hctx : isMoved ctx v = false) (hv : v ≠ []) :
    openTag ctx { classes := some v } = "<span class=\"" ++ Html.escape v ++ "\">" := by
  have hbefore : "<span class=\"".toList =
      "<span".toList ++ (" ".toList ++ "class".toList ++ "=\"".toList) := rfl
  have hbehind : "\">".toList = "\"".toList ++ ">".toList := rfl
  rw [openTag_value, hctx, if_neg Bool.false_ne_true, nonemptyAttr, if_neg hv, Html.attr]
  simp only [hbefore, hbehind, List.append_assoc]

end SpanAttributes

/-! ## A span -/

namespace StyleSpan

open Quotation
open SpanAttributes (classList)

variable {s v t : Text} {span : Span}

theorem readBody?_of_head (h : s.head? ≠ some '{') :
    readBody? s = (breakAtEnd s).map fun found => (found.1, found.2.drop Token.endMarker.length) := by
  unfold readBody?
  split
  · exact absurd rfl h
  · rfl

theorem read?_of_parts {list raw behind body rest : Text} (hlist : afterOpening? s = some list)
    (hraw : breakAtParen list = some (raw, behind))
    (hbody : readBody? ((behind.drop 1).dropWhile isGap) = some (body, rest)) :
    read? s = some ⟨raw, body, rest⟩ := by
  refine Option.bind_eq_some_iff.mpr ⟨list, hlist, ?_⟩
  refine Option.bind_eq_some_iff.mpr ⟨(raw, behind), hraw, ?_⟩
  exact Option.bind_eq_some_iff.mpr ⟨(body, rest), hbody, rfl⟩

theorem raw_of_read? {list raw behind : Text} (hlist : afterOpening? s = some list)
    (hraw : breakAtParen list = some (raw, behind)) (h : read? s = some span) : span.raw = raw := by
  obtain ⟨list', hlist', h⟩ := Option.bind_eq_some_iff.mp h
  obtain ⟨⟨raw', behind'⟩, hraw', h⟩ := Option.bind_eq_some_iff.mp h
  obtain ⟨⟨body, rest⟩, -, h⟩ := Option.bind_eq_some_iff.mp h
  cases h
  rw [hlist] at hlist'
  cases hlist'
  rw [hraw] at hraw'
  cases hraw'
  rfl

theorem read?_eq_none (hshort : ¬"@(".toList <+: s) (hlong : ¬"@style(".toList <+: s) : read? s = none := by
  have hopening : afterOpening? s = none := by
    rw [afterOpening?, skip?_eq_none_iff.mpr hshort, skip?_eq_none_iff.mpr hlong]
  rw [read?, hopening]
  rfl

theorem isSome_afterOpening? (h : read? s = some span) : (afterOpening? s).isSome := by
  obtain ⟨list, hlist, -⟩ := Option.bind_eq_some_iff.mp h
  rw [hlist]
  rfl

theorem breakAtOpening_of_isSome (h : (afterOpening? s).isSome) : breakAtOpening s = some ([], s) := by
  cases s with
  | nil => cases h
  | cons c s => rw [breakAtOpening, if_pos h]

theorem breakAtOpening_of_read? (h : read? s = some span) : breakAtOpening s = some ([], s) :=
  breakAtOpening_of_isSome (isSome_afterOpening? h)

theorem piecesAfter_of_span {before lead opening : Text} (h : breakAtOpening s = some (lead, opening))
    (hahead : CodeRegion.ahead? (before ++ lead) opening = none) (hread : read? opening = some span) :
    piecesAfter before s =
      .literal lead :: .span (opening.take (opening.length - span.rest.length)) span.raw span.body ::
        piecesAfter (before ++ lead ++ opening.take (opening.length - span.rest.length)) span.rest := by
  rw [piecesAfter_eq, h]
  simp only [hahead, hread]

/-- An opening without a complete span leaves its first character as it is. -/
theorem piecesAfter_of_unread {before lead opening : Text} (h : breakAtOpening s = some (lead, opening))
    (hahead : CodeRegion.ahead? (before ++ lead) opening = none) (hread : read? opening = none) :
    piecesAfter before s =
      .literal (lead ++ opening.take 1) ::
        piecesAfter (before ++ lead ++ opening.take 1) (opening.drop 1) := by
  rw [piecesAfter_eq, h]
  simp only [hahead, hread]

theorem render_of_read? {raw body rest : Text} (hread : read? s = some ⟨raw, body, rest⟩)
    (hrest : '@' ∉ rest) (ctx : SpanContext) :
    render ctx s = (SpanAttributes.parse raw).openTag ctx ++ body ++ "</span>" ++ rest := by
  have hahead : CodeRegion.ahead? ([] ++ []) s = none := rfl
  rw [render, pieces, piecesAfter_of_span (breakAtOpening_of_read? hread) hahead hread,
    piecesAfter_of_none (breakAtOpening_eq_none hrest)]
  simp only [List.flatMap_cons, List.flatMap_nil, Piece.html, List.nil_append, List.append_nil]

theorem render_of_read?_none {c : Char} (hread : read? (c :: s) = none) (hat : '@' ∉ s) (ctx : SpanContext) :
    render ctx (c :: s) = c :: s := by
  have hrest := breakAtOpening_eq_none hat
  rw [render, pieces]
  cases hopening : afterOpening? (c :: s) with
  | none =>
      have hnone : breakAtOpening (c :: s) = none := by
        rw [breakAtOpening, hopening, hrest]
        rfl
      rw [piecesAfter_of_none hnone]
      exact List.append_nil _
  | some list =>
      have hsome : (afterOpening? (c :: s)).isSome := Option.isSome_of_eq_some hopening
      have hahead : CodeRegion.ahead? ([] ++ []) (c :: s) = none := rfl
      rw [piecesAfter_of_unread (breakAtOpening_of_isSome hsome) hahead hread, List.drop_one, List.tail_cons,
        piecesAfter_of_none hrest]
      exact congrArg (c :: ·) (List.append_nil s)

/-- An opening without a complete span at the start of a text stays there, whatever follows it. -/
theorem head?_render_of_read?_none {c : Char} (hopening : (afterOpening? (c :: s)).isSome)
    (hread : read? (c :: s) = none) (ctx : SpanContext) : (render ctx (c :: s)).head? = some c := by
  have hahead : CodeRegion.ahead? ([] ++ []) (c :: s) = none := rfl
  rw [render, pieces, piecesAfter_of_unread (breakAtOpening_of_isSome hopening) hahead hread]
  rfl

/-- A complete span at the start of a text becomes its opening tag, whatever follows it. -/
theorem exists_render_of_read? (hread : read? s = some span) (ctx : SpanContext) :
    ∃ t, render ctx s = (SpanAttributes.parse span.raw).openTag ctx ++ t := by
  have hahead : CodeRegion.ahead? ([] ++ []) s = none := rfl
  rw [render, pieces, piecesAfter_of_span (breakAtOpening_of_read? hread) hahead hread]
  rw [List.flatMap_cons, List.flatMap_cons, Piece.html, Piece.html, List.nil_append, List.append_assoc,
    List.append_assoc]
  exact ⟨_, rfl⟩

theorem head?_render_of_read? (hread : read? s = some span) (ctx : SpanContext) :
    (render ctx s).head? = some '<' := by
  obtain ⟨t, ht⟩ := exists_render_of_read? hread ctx
  have hname : "<span".toList.head? = some '<' := rfl
  rw [ht]
  unfold SpanAttributes.openTag
  generalize "<span".toList = name at hname
  simp only [List.append_assoc, List.head?_append, hname, Option.some_or]

theorem breakAtParen_class (hquote : '"' ∉ v) (hslash : '\\' ∉ v) (rest : Text) :
    breakAtParen (classList v ++ ')' :: rest) = some (classList v, ')' :: rest) := by
  have hkey : ∀ c ∈ "class=".toList, Text.isQuote c = false := by decide
  have hvalue : '"' :: (v ++ ['"']) ++ ')' :: rest = '"' :: (v ++ '"' :: ')' :: rest) :=
    congrArg ('"' :: ·) (List.append_assoc v ['"'] _)
  have hsource : classList v ++ ')' :: rest = "class=" ++ '"' :: (v ++ '"' :: ')' :: rest) :=
    (List.append_assoc ..).trans (congrArg ("class=".toList ++ ·) hvalue)
  rw [breakAtParen, hsource, breakWhere_plain hkey, breakWhere_quoted (by decide) hquote hslash]
  · rfl
  · intro c hc rest
    have hne : ∀ d ∈ "class=".toList, d ≠ ')' := by decide
    simpa using hne c hc

theorem read?_class (hquote : '"' ∉ v) (hslash : '\\' ∉ v) (ht : ∀ c ∈ braceSigns, c ∉ t) :
    read? ("@(" ++ (classList v ++ ')' :: '{' :: (t ++ ['}']))) = some ⟨classList v, t, []⟩ := by
  have hopen : afterOpening? ("@(" ++ (classList v ++ ')' :: '{' :: (t ++ ['}']))) =
      some (classList v ++ ')' :: '{' :: (t ++ ['}'])) := rfl
  have hbody : readBody? ('{' :: (t ++ ['}'])) = some (t, []) := by
    show (breakAtClosingBrace ('{' :: (t ++ '}' :: []))).map _ = _
    rw [breakAtClosingBrace_plain ht]
    rfl
  exact read?_of_parts hopen (breakAtParen_class hquote hslash _) hbody

theorem render_class {ctx : SpanContext} (hctx : SpanAttributes.isMoved ctx v = false) (hv : v ≠ [])
    (hquote : '"' ∉ v) (hslash : '\\' ∉ v) (hamp : '&' ∉ v) (ht : ∀ c ∈ braceSigns, c ∉ t) :
    render ctx ("@(class=\"" ++ v ++ "\")\x7b" ++ t ++ "\x7d") =
      "<span class=\"" ++ Html.escape v ++ "\">" ++ t ++ "</span>" := by
  have hopen : "@(class=\"".toList = "@(".toList ++ ("class=".toList ++ ['"']) := rfl
  have hbetween : "\")\x7b".toList = ['"', ')', '{'] := rfl
  have hclose : "\x7d".toList = ['}'] := rfl
  have hsource : "@(class=\"" ++ v ++ "\")\x7b" ++ t ++ "\x7d" =
      "@(" ++ (classList v ++ ')' :: '{' :: (t ++ ['}'])) := by
    unfold classList
    rewrite [hopen, hbetween, hclose]
    -- Only the shape matters; with the two literals in place each step would unfold them.
    generalize "@(".toList = mark
    generalize "class=".toList = key
    simp only [List.append_assoc, List.cons_append, List.nil_append]
  have htag : (SpanAttributes.parse (classList v)).openTag ctx =
      "<span class=\"" ++ Html.escape v ++ "\">" := by
    rw [SpanAttributes.parse_class hquote hamp, SpanAttributes.openTag_class hctx hv]
  have hrest : '@' ∉ ([] : Text) := List.not_mem_nil
  rw [hsource, render_of_read? (read?_class hquote hslash ht) hrest, htag]
  exact List.append_nil _

end StyleSpan
end AtMark

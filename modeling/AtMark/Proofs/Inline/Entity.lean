import AtMark.Proofs.Inline.StyleSpan

/-!
# `Proofs.Inline.Entity`: attribute lists written with entities

## What is proved

A class value between entities makes the span that it makes between quotes exactly if it holds no closing parenthesis
(`StyleSpan.render_classSpan_eq_iff`).

## How

Inside an attribute list an entity for the double quote is read as the quote itself (`decodeQuotes_entity`), so the
list means the same either way.  The end of the list, however, is searched for before entities are read, and they
quote nothing in that search (`breakAtParen_entities`): a value written between entities may not hold a closing
parenthesis, since the list ends there.

Without a parenthesis, the value between entities is the value (`render_classSpan_entities`).  With one, the list ends
there, and so does the value; or there is no span at all, if what follows is no body (`render_classSpan_cut`).  In the
second case the text is left as it is, and in the first the two spans differ within their opening tags, whether the
value is written as classes or as a style (`openTag_append_ne`).

## What is not

Values with quotes, ampersands or backslashes of their own, and bodies in which the passes find signs (`valueSigns`,
`bodySigns`).  Of the spellings of the entity two are read, `&quot;` and `&#34;`, and every other one is text.
-/

namespace AtMark

open Search

/-! ## Lists -/

namespace SpanAttributes

variable {mark v : Text}

/-- The entities for the double quote. -/
def quoteEntities : List Text := ["&quot;", "&#34;"]

theorem decodeQuotes_entity (h : mark ∈ quoteEntities) (s : Text) :
    decodeQuotes (mark ++ s) = '"' :: decodeQuotes s := by
  rcases List.mem_pair.mp h with rfl | rfl
  · have hread : replaceAll "&quot;".toList ['"'] ("&quot;".toList ++ s) =
        '"' :: replaceAll "&quot;".toList ['"'] s :=
      replaceAll_of_skip (by decide) (skip?_eq_some_iff.mpr rfl)
    show replaceAll "&#34;".toList ['"'] (replaceAll "&quot;".toList ['"'] ("&quot;".toList ++ s)) = _
    rw [hread]
    exact replaceAll_cons (by decide) rfl
  · have hname : replaceAll "&quot;".toList ['"'] ('&' :: ("#34;".toList ++ s)) =
        '&' :: replaceAll "&quot;".toList ['"'] ("#34;".toList ++ s) := replaceAll_cons (by decide) rfl
    have htail : replaceAll ('&' :: "quot;".toList) ['"'] ("#34;".toList ++ s) =
        "#34;".toList ++ replaceAll ('&' :: "quot;".toList) ['"'] s := replaceAll_append (by decide) s
    show replaceAll "&#34;".toList ['"'] (replaceAll "&quot;".toList ['"'] ('&' :: ("#34;".toList ++ s))) = _
    rw [hname]
    exact (congrArg (fun t => replaceAll "&#34;".toList ['"'] ('&' :: t)) htail).trans
      (replaceAll_of_skip (by decide) (skip?_eq_some_iff.mpr rfl))

theorem decodeQuotes_classList (h : mark ∈ quoteEntities) (hamp : '&' ∉ v) (tail : Text) :
    decodeQuotes ("class=" ++ (mark ++ (v ++ tail))) = "class=" ++ '"' :: (v ++ decodeQuotes tail) := by
  have hkey : '&' ∉ "class=".toList := by decide
  generalize "class=".toList = key at hkey
  rw [decodeQuotes_append hkey, decodeQuotes_entity h, decodeQuotes_append hamp]

theorem parse_entities (h : mark ∈ quoteEntities) (hquote : '"' ∉ v) (hamp : '&' ∉ v) {tail : Text}
    (htail : tail = [] ∨ tail = mark) :
    parse ("class=" ++ (mark ++ (v ++ tail))) = { classes := some v } := by
  have hnil : decodeQuotes [] = [] := decodeQuotes_eq_self List.not_mem_nil
  have hread : decodeQuotes tail = [] ∨ decodeQuotes tail = ['"'] := by
    rcases htail with rfl | rfl
    · exact .inl hnil
    · have hmark := decodeQuotes_entity h []
      rw [List.append_nil, hnil] at hmark
      exact .inr hmark
  rw [parse, decodeQuotes_classList h hamp, items_class hquote hread]
  rfl

theorem valueName_append_inj {moved moved' : Bool} {t t' : Text}
    (h : (if moved then "style" else "class" : Text) ++ t = (if moved' then "style" else "class" : Text) ++ t') :
    t = t' := by
  cases moved with
  | true =>
      cases moved' with
      | true => exact List.append_cancel_left h
      | false =>
          have hhead : some 's' = some 'c' := congrArg List.head? h
          exact absurd hhead (by decide)
  | false =>
      cases moved' with
      | true =>
          have hhead : some 'c' = some 's' := congrArg List.head? h
          exact absurd hhead (by decide)
      | false => exact List.append_cancel_left h

/-- The opening tags of two class values, of which one goes on with a parenthesis, differ within the tags. -/
theorem openTag_append_ne (ctx : SpanContext) (front back t t' : Text) :
    openTag ctx { classes := some front } ++ t ≠
      openTag ctx { classes := some (front ++ ')' :: back) } ++ t' := by
  intro heq
  have hlong : ∀ name, nonemptyAttr name (some (front ++ ')' :: back)) =
      Html.attr name (front ++ ')' :: back) := fun name => if_neg (by simp)
  rw [openTag_value, openTag_value, hlong] at heq
  by_cases hnil : front = []
  · -- Without a value there is no attribute, so the shorter tag ends where the other one has a blank.
    have hshort : ∀ name, nonemptyAttr name (some front) = [] := fun name => if_pos hnil
    simp only [hshort, Html.attr, List.append_assoc, List.append_cancel_left_eq, List.append_nil] at heq
    have hhead : some '>' = some ' ' := congrArg List.head? heq
    exact absurd hhead (by decide)
  · -- Otherwise the shorter value ends where the other one has the parenthesis.
    have hshort : ∀ name, nonemptyAttr name (some front) = Html.attr name front := fun name => if_neg hnil
    have hescape : Html.escape (front ++ ')' :: back) = Html.escape front ++ ')' :: Html.escape back :=
      List.flatMap_append
    simp only [hshort, Html.attr, hescape, List.append_assoc, List.append_cancel_left_eq] at heq
    have hvalue := valueName_append_inj heq
    rw [List.append_cancel_left_eq, List.append_cancel_left_eq] at hvalue
    have hhead : some '"' = some ')' := congrArg List.head? hvalue
    exact absurd hhead (by decide)

end SpanAttributes

/-! ## Spans in long form -/

namespace StyleSpan

open Quotation
open SpanAttributes (quoteEntities classList openTag parse_class parse_entities)

variable {mark v b s : Text}

/-- A span in long form with a class value between two marks for the quote. -/
def classSpan (mark v b : Text) : Text :=
  "@style(class=" ++ mark ++ v ++ mark ++ ") " ++ b ++ " @end"

/-- The characters that a body up to an end marker may not hold. -/
def bodySigns : Text := "@\"'\x7b"

theorem afterOpening?_classSpan (mark v b : Text) :
    afterOpening? (classSpan mark v b) =
      some ("class=" ++ (mark ++ (v ++ (mark ++ ')' :: ' ' :: (b ++ " @end"))))) := by
  have hopen : "@style(class=".toList = "@style(".toList ++ "class=".toList := rfl
  have hbetween : ") ".toList = [')', ' '] := rfl
  have hsource : classSpan mark v b =
      "@style(" ++ ("class=" ++ (mark ++ (v ++ (mark ++ ')' :: ' ' :: (b ++ " @end"))))) := by
    show "@style(class=".toList ++ mark ++ v ++ mark ++ ") ".toList ++ b ++ " @end".toList = _
    rw [hopen, hbetween]
    simp only [List.append_assoc, List.cons_append, List.nil_append]
  rw [hsource]
  rfl

/-! ### The body -/

theorem readBody?_plain (hb : ∀ c ∈ bodySigns, c ∉ b) :
    readBody? ((' ' :: (b ++ " @end")).dropWhile isGap) = some ((b ++ [' ']).dropWhile isGap, []) := by
  have hend : b ++ " @end".toList = b ++ [' '] ++ Token.endMarker := (List.append_assoc b [' '] _).symm
  have hgap : (' ' :: (b ++ " @end".toList)).dropWhile isGap =
      (b ++ [' ']).dropWhile isGap ++ Token.endMarker := by
    rw [List.dropWhile_cons_of_pos rfl, hend]
    refine Text.dropWhile_append_of_stop ?_ _
    rintro c ⟨⟩
    rfl
  have hbody : ∀ c ∈ (b ++ [' ']).dropWhile isGap, c ∉ bodySigns := by
    intro c hc hsign
    rcases List.mem_append.mp ((List.dropWhile_subset isGap) hc) with hin | hspace
    · exact hb c hsign hin
    · rw [List.mem_singleton.mp hspace] at hsign
      exact absurd hsign (by decide)
  rw [hgap]
  generalize (b ++ [' ']).dropWhile isGap = body at hbody
  have hhead : (body ++ Token.endMarker).head? ≠ some '{' := by
    cases body with
    | nil => decide
    | cons c body =>
        rintro ⟨⟩
        exact hbody '{' List.mem_cons_self (by decide)
  have hquote : ∀ c ∈ body, Text.isQuote c = false := by
    intro c hc
    have hsign : ∀ d ∈ bodySigns, c ≠ d := fun d hd heq => hbody c hc (heq ▸ hd)
    simp [Text.isQuote, hsign '"' (by decide), hsign '\'' (by decide)]
  have hstop : ∀ c ∈ body, ∀ rest, (skip? Token.endMarker (c :: rest)).isSome = false := by
    intro c hc rest
    have hne : '@' ≠ c := fun heq => hbody c hc (heq ▸ by decide)
    have hskip : skip? Token.endMarker (c :: rest) = none := if_neg hne
    rw [hskip]
    rfl
  have hfound : breakWhere (fun rest => (skip? Token.endMarker rest).isSome) outside Token.endMarker =
      some ([], Token.endMarker) := rfl
  rw [readBody?_of_head hhead, breakAtEnd, breakWhere_plain hquote hstop, hfound]
  exact congrArg (fun inside => some (inside, [])) (List.append_nil body)

/-! ### The span -/

theorem read?_classSpan {list : Text} (hb : ∀ c ∈ bodySigns, c ∉ b) (hlist : list = "class=" ++ (mark ++ (v ++ mark)))
    (hparen : ∀ rest, breakAtParen (list ++ ')' :: rest) = some (list, ')' :: rest)) :
    read? (classSpan mark v b) = some ⟨list, (b ++ [' ']).dropWhile isGap, []⟩ := by
  have hsource : "class=".toList ++ (mark ++ (v ++ (mark ++ ')' :: ' ' :: (b ++ " @end")))) =
      list ++ ')' :: ' ' :: (b ++ " @end") := by
    rw [hlist]
    simp only [List.append_assoc]
  have hopen := afterOpening?_classSpan mark v b
  rw [hsource] at hopen
  exact read?_of_parts hopen (hparen _) (readBody?_plain hb)

/-! ### The end of the list -/

/-- The characters that a search for a closing parenthesis reads. -/
def parenSigns : Text := "\"')"

theorem not_mem_parenSigns (hquote : '"' ∉ s) (happ : '\'' ∉ s) (hparen : ')' ∉ s) :
    ∀ d ∈ parenSigns, d ∉ s := by
  have hall : ∀ d ∈ parenSigns, d = '"' ∨ d = '\'' ∨ d = ')' := by decide
  intro d hd
  rcases hall d hd with rfl | rfl | rfl
  · exact hquote
  · exact happ
  · exact hparen

theorem breakAtParen_plain (hs : ∀ d ∈ parenSigns, d ∉ s) (rest : Text) :
    breakAtParen (s ++ ')' :: rest) = some (s, ')' :: rest) := by
  have hne : ∀ c ∈ s, ∀ d ∈ parenSigns, c ≠ d := fun c hc d hd heq => hs d hd (heq ▸ hc)
  have hquote : ∀ c ∈ s, Text.isQuote c = false := by
    intro c hc
    simp [Text.isQuote, hne c hc '"' (by decide), hne c hc '\'' (by decide)]
  have hstop : ∀ c ∈ s, ∀ rest : Text, ((c :: rest).head? == some ')') = false := by
    intro c hc rest
    simpa using hne c hc ')' (by decide)
  have hfound : breakWhere (fun rest => rest.head? == some ')') outside (')' :: rest) =
      some ([], ')' :: rest) := rfl
  rw [breakAtParen, breakWhere_plain hquote hstop, hfound]
  exact congrArg (fun inside => some (inside, ')' :: rest)) (List.append_nil s)

/-- Entities quote nothing in the search for the end of a list: the first parenthesis behind them ends it. -/
theorem breakAtParen_entities (h : mark ∈ quoteEntities) (hv : ∀ d ∈ parenSigns, d ∉ v) {tail : Text}
    (htail : tail = [] ∨ tail = mark) (rest : Text) :
    breakAtParen ("class=" ++ (mark ++ (v ++ tail)) ++ ')' :: rest) =
      some ("class=" ++ (mark ++ (v ++ tail)), ')' :: rest) := by
  have hkey : ∀ d ∈ parenSigns, d ∉ "class=".toList := by decide
  have hmark : ∀ d ∈ parenSigns, d ∉ mark := by
    rcases List.mem_pair.mp h with rfl | rfl
    · decide
    · decide
  have hbehind : ∀ d ∈ parenSigns, d ∉ tail := by
    rcases htail with rfl | rfl
    · exact fun _ _ => List.not_mem_nil
    · exact hmark
  refine breakAtParen_plain (fun d hd => ?_) rest
  simp only [List.mem_append, not_or]
  exact ⟨hkey d hd, hmark d hd, hv d hd, hbehind d hd⟩

/-! ### Both ways of writing -/

theorem read?_classSpan_quote (hquote : '"' ∉ v) (hslash : '\\' ∉ v) (hb : ∀ c ∈ bodySigns, c ∉ b) :
    read? (classSpan ['"'] v b) = some ⟨classList v, (b ++ [' ']).dropWhile isGap, []⟩ :=
  read?_classSpan hb rfl (breakAtParen_class hquote hslash)

theorem render_classSpan_quote (hquote : '"' ∉ v) (hamp : '&' ∉ v) (hslash : '\\' ∉ v)
    (hb : ∀ c ∈ bodySigns, c ∉ b) (ctx : SpanContext) :
    render ctx (classSpan ['"'] v b) =
      openTag ctx { classes := some v } ++ (b ++ [' ']).dropWhile isGap ++ "</span>" := by
  rw [render_of_read? (read?_classSpan_quote hquote hslash hb) List.not_mem_nil, parse_class hquote hamp,
    List.append_nil]

section Entities

variable (h : mark ∈ quoteEntities) (hquote : '"' ∉ v) (hamp : '&' ∉ v)

include h hquote hamp

theorem render_classSpan_entities (hv : ∀ d ∈ parenSigns, d ∉ v) (hb : ∀ c ∈ bodySigns, c ∉ b)
    (ctx : SpanContext) :
    render ctx (classSpan mark v b) =
      openTag ctx { classes := some v } ++ (b ++ [' ']).dropWhile isGap ++ "</span>" := by
  have hread := read?_classSpan hb rfl (breakAtParen_entities h hv (.inr rfl))
  rw [render_of_read? hread List.not_mem_nil, parse_entities h hquote hamp (.inr rfl), List.append_nil]

theorem render_classSpan_cut {front back : Text} (hv : v = front ++ ')' :: back) (hfront : ∀ d ∈ parenSigns, d ∉ front)
    (b : Text) (ctx : SpanContext) :
    (render ctx (classSpan mark v b)).head? = some '@' ∨
      ∃ t, render ctx (classSpan mark v b) = openTag ctx { classes := some front } ++ t := by
  subst hv
  rw [List.mem_append, not_or] at hquote hamp
  have hsource : "class=".toList ++ (mark ++ (front ++ ')' :: back ++ (mark ++ ')' :: ' ' :: (b ++ " @end")))) =
      "class=".toList ++ (mark ++ (front ++ [])) ++ ')' :: (back ++ (mark ++ ')' :: ' ' :: (b ++ " @end"))) := by
    simp only [List.append_assoc, List.cons_append, List.append_nil]
  have hopen := afterOpening?_classSpan mark (front ++ ')' :: back) b
  rw [hsource] at hopen
  have hlist := breakAtParen_entities h hfront (.inl rfl) (back ++ (mark ++ ')' :: ' ' :: (b ++ " @end")))
  cases hread : read? (classSpan mark (front ++ ')' :: back) b) with
  | none => exact .inl (head?_render_of_read?_none (Option.isSome_of_eq_some hopen) hread ctx)
  | some span =>
      obtain ⟨t, ht⟩ := exists_render_of_read? hread ctx
      rw [raw_of_read? hopen hlist hread, parse_entities h hquote.1 hamp.1 (.inl rfl)] at ht
      exact .inr ⟨t, ht⟩

end Entities

/-- The characters that have a meaning within a quoted value or for entities. -/
def valueSigns : Text := "\"'&\\"

/-- A class value between entities makes the span that it makes between quotes exactly if it holds no closing
parenthesis.  Letters and spaces are no signs, so this is about every body of them. -/
theorem render_classSpan_eq_iff (ctx : SpanContext) (hmark : mark ∈ quoteEntities) (hv : ∀ c ∈ valueSigns, c ∉ v)
    (hb : ∀ c ∈ bodySigns, c ∉ b) :
    render ctx (classSpan "\"" v b) =
        openTag ctx { classes := some v } ++ (b ++ [' ']).dropWhile isGap ++ "</span>" ∧
      (render ctx (classSpan mark v b) = render ctx (classSpan "\"" v b) ↔ ')' ∉ v) := by
  have hquote : '"' ∉ v := hv _ (by decide)
  have happ : '\'' ∉ v := hv _ (by decide)
  have hamp : '&' ∉ v := hv _ (by decide)
  have hslash : '\\' ∉ v := hv _ (by decide)
  have hquoted : render ctx (classSpan "\"" v b) = _ := render_classSpan_quote hquote hamp hslash hb ctx
  refine ⟨hquoted, ?_, ?_⟩
  · -- The list ends at the first parenthesis, and what stands before that one makes another tag.
    intro heq hparen
    obtain ⟨front, back, hsplit, hfront⟩ := List.eq_append_cons_of_mem hparen
    have hwithin : front ⊆ v := hsplit ▸ List.subset_append_left front _
    have hplain := not_mem_parenSigns (fun h => hquote (hwithin h)) (fun h => happ (hwithin h)) hfront
    rcases render_classSpan_cut hmark hquote hamp hsplit hplain b ctx with hhead | ⟨t, ht⟩
    · have htag : (render ctx (classSpan "\"" v b)).head? = some '<' :=
        head?_render_of_read? (read?_classSpan_quote hquote hslash hb) ctx
      rw [heq, htag] at hhead
      exact absurd hhead (by decide)
    · rw [hquoted, ht, hsplit, List.append_assoc] at heq
      exact SpanAttributes.openTag_append_ne ctx front back _ _ heq
  · intro hparen
    rw [hquoted]
    exact render_classSpan_entities hmark hquote hamp (not_mem_parenSigns hquote happ hparen) hb ctx

/-- A value with separators of its own. -/
theorem render_classSpan_eq_iff_separators :
    "&#34;".toList ∈ quoteEntities ∧ (∀ c ∈ valueSigns, c ∉ "x, y=z".toList) ∧
      (∀ c ∈ bodySigns, c ∉ "a word".toList) ∧
      render {} "@style(class=&#34;x, y=z&#34;) a word @end" = "<span class=\"x, y=z\">a word </span>" := by
  have hmark : "&#34;".toList ∈ quoteEntities := by decide
  have hv : ∀ c ∈ valueSigns, c ∉ "x, y=z".toList := by decide
  have hb : ∀ c ∈ bodySigns, c ∉ "a word".toList := by decide
  obtain ⟨hquoted, hsame⟩ := render_classSpan_eq_iff {} hmark hv hb
  have hequal := (hsame.mpr (by decide)).trans hquoted
  exact ⟨hmark, hv, hb, hequal.trans (by decide +kernel)⟩

/-- A parenthesis ends the list, though the value is not at its end. -/
theorem entities_with_parenthesis_change :
    "&quot;".toList ∈ quoteEntities ∧ (∀ c ∈ valueSigns, c ∉ "a)b".toList) ∧ (∀ c ∈ bodySigns, c ∉ "c".toList) ∧
      render {} (classSpan "\"" "a)b" "c") = "<span class=\"a)b\">c </span>" ∧
      render {} (classSpan "&quot;" "a)b" "c") = "<span class=\"a\">b&quot;) c </span>" ∧
      render {} (classSpan "&quot;" "a)b" "c") ≠ render {} (classSpan "\"" "a)b" "c") := by
  decide +kernel

end StyleSpan
end AtMark

import AtMark.Proofs.Compilation
import AtMark.Proofs.Document.Block
import AtMark.Proofs.Inline.StyleSpan
import AtMark.Proofs.Render.Textless
import AtMark.Proofs.Token.Form

/-!
# `Proofs.Document.Escape`: an escaped word and its page

## What is proved

A word behind a doubled at sign is a paragraph of its own that begins with a single one
(`Document.children_escape`).  Its page has that paragraph and nothing else, except for vendored assets
(`Escape.compile_word`).

The escape is gone by then, and the inline passes read the at sign as if the source had had it.  For a word without
the signs of the other passes the style pass alone is left (`IsPlainWord.render_eq`).  So the word is in the page as
it was written exactly if no style span is complete where it begins, and none is if the word does not begin like one
(`Escape.compile_word_eq_iff`).

The right side of that equivalence is decidable, and it does fail: an escaped span with its list and its body comes out
as a span (`Escape.escaped_span_changes`).  What the escape takes away is the meaning that the at sign has for
directives, and no more.

## What is not

Words with an at sign, a backtick, a backslash, an asterisk or an opening bracket in them, which the other passes may
change, and words that are not alone.  The host is any: a paragraph asks for no file but the lock file and for no
highlighter.
-/

namespace AtMark

open Text

/-! ## One word of inline text -/

namespace Inline

variable {w : Text}

/-- The characters that code, escapes, emphasis and links begin with, and the at sign. -/
def wordSigns : Text := "@\x60\\*["

/-- A word without at signs and without the signs of code, escapes, emphasis and links. -/
structure IsPlainWord (w : Text) : Prop where
  solid : ∀ c ∈ w, isSolid c = true
  no_sign : ∀ c ∈ wordSigns, c ∉ w

namespace IsPlainWord

variable (h : IsPlainWord w)
include h

theorem not_mem_mark {c : Char} (hc : c ∈ wordSigns) (hmark : c ≠ '@') : c ∉ '@' :: w := by
  rw [List.mem_cons, not_or]
  exact ⟨hmark, h.no_sign c hc⟩

theorem render_eq (ctx : SpanContext) : render ctx ('@' :: w) =
    emphasise (Link.render (StyleSpan.render ctx ('@' :: w))) := by
  rw [render, CodeSpan.render_eq_self (h.not_mem_mark (by decide) (by decide))
    (h.not_mem_mark (by decide) (by decide))]

theorem render_eq_self_iff (ctx : SpanContext) :
    render ctx ('@' :: w) = '@' :: w ↔ StyleSpan.read? ('@' :: w) = none := by
  rw [h.render_eq]
  cases hread : StyleSpan.read? ('@' :: w) with
  | none =>
      have hstar : '*' ∉ '@' :: w := h.not_mem_mark (by decide) (by decide)
      have hstyle := StyleSpan.render_of_read?_none hread (h.no_sign '@' (by decide)) ctx
      rw [hstyle, Link.render_unopened (h.not_mem_mark (by decide) (by decide)), emphasise]
      refine iff_of_true (CodeRegion.mapOutside_eq_self fun t ht => ?_) rfl
      exact Emphasis.render_eq_self_of_not_mem fun hmem => hstar (ht.subset hmem)
  | some span =>
      -- The later passes keep the tag at the start, and the word has an at sign there.
      obtain ⟨rest, hrest⟩ := List.head?_eq_some_iff.mp (StyleSpan.head?_render_of_read? hread ctx)
      have hlinks : (Link.render (StyleSpan.render ctx ('@' :: w))).head? = some '<' := by
        rw [hrest]
        exact congrArg List.head? (Link.render_append_left (t := ['<']) (by decide) rest)
      have hnil : Emphasis.render [] = [] := Emphasis.render_eq_self_of_not_mem List.not_mem_nil
      have htag : ∀ t : Text, t.head? = some '<' → (Emphasis.render t).head? = some '<' := by
        intro t ht
        obtain ⟨u, rfl⟩ := List.head?_eq_some_iff.mp ht
        rw [Emphasis.render_cons (by decide) fun heq => absurd heq (by decide)]
        rfl
      have hhead := CodeRegion.head?_mapOutside hnil htag hlinks
      refine iff_of_false (fun heq => ?_) (Option.some_ne_none span)
      rw [emphasise] at heq
      rw [heq] at hhead
      cases hhead

end IsPlainWord
end Inline

/-! ## The document -/

namespace Document

variable {w : Text}

theorem children_escape (fenced : List Text) (hw : ∀ c ∈ w, isSolid c = true) :
    (ofTokens (TokenStream.unguarded fenced ⟨Escape.mark ++ w, none⟩).tokens).children =
      [⟨.content, .empty, '@' :: w, true, []⟩] := by
  have hline : '\n' ∉ Escape.mark ++ w :=
    List.not_mem_append (by decide) fun hmem => absurd (hw '\n' hmem) (by decide)
  have hend : '@' :: trimEnd isTrailing ('@' :: w) ≠ Token.endMarker := by
    rw [trimEnd_cons rfl]
    intro heq
    cases heq
  have hform : Line.LineForm.ofLine (Escape.mark ++ w) = .prose (Escape.mark ++ w) :=
    Line.LineForm.ofLine_mark (fun c hc => absurd hc List.not_mem_nil) hend
  have hdirective : ∀ name, Line.LineForm.ofLine (Escape.mark ++ w) ≠ .directive name := by
    intro name heq
    exact Line.LineForm.noConfusion (hform.symm.trans heq)
  rw [TokenStream.unguarded_last_line hline (List.cons_ne_nil _ _) hdirective, hform,
    Line.LineForm.tokens, Prose.tokens_escape hw, children_content, children_nil]

end Document

/-! ## The page -/

namespace Renderer

variable {d : Node} {text : Text} {owned : Bool}

theorem page_paragraph (host : Host) (options : RenderOptions) (hroot : d.kind = .document)
    (hd : d.children = [⟨.content, .empty, text, owned, []⟩]) (htext : strip text ≠ []) :
    ({ host, options } : Renderer).page d =
      .ok (assemble (options.assets.tags host.files)
        ["<p>" ++ Inline.render ⟨.empty, options.cssHeuristic⟩ (strip text) ++ "</p>"]) := by
  have hkind : ∀ kind, kind ≠ .document → kind ≠ .content → d.ofKind kind = [] := by
    intro kind hdocument hcontent
    rw [Node.ofKind_eq, hroot, if_neg hdocument.symm, hd, List.flatMap_singleton, Node.ofKind_eq,
      if_neg hcontent.symm]
    rfl
  have haliases : aliasesOf d = .empty := by
    rw [aliasesOf, definitions, hkind .styleDef (by decide) (by decide)]
    rfl
  have hhead : Render.head host.files options d = options.assets.tags host.files := by
    rw [Render.head, Render.metadata, Render.globalRules, Render.globalStyles,
      hkind .metadata (by decide) (by decide), hkind .style (by decide) (by decide)]
    rfl
  have hparagraph : Render.builtin.render (Render.bare host options .empty) ⟨.content, .empty, text, owned, []⟩ =
      .of ("<p>" ++ Inline.render ⟨.empty, options.cssHeuristic⟩ (strip text) ++ "</p>")
        (Inline.notices ⟨.empty, options.cssHeuristic⟩ (strip text)) :=
    if_neg htext
  rw [page_builtin, hhead, haliases, hd, linesOf, hparagraph]
  rfl

theorem assemble_singleton_inj {head : List Text} {a b : Text}
    (h : assemble head [a] = assemble head [b]) : a = b := by
  have hbody := List.append_cancel_left (List.append_cancel_right h)
  simpa [unlines] using hbody

end Renderer

/-! ## The compilation -/

namespace Escape

variable {w : Text}

theorem compile_word (hw : ∀ c ∈ w, isSolid c = true) (host : Host) (settings : Settings)
    (verbosity : Int) :
    (compile host (.text (mark ++ w)) settings none verbosity).result =
      .ok (Renderer.assemble (settings.renderOptions.assets.tags host.files)
        ["<p>" ++ Inline.render ⟨.empty, settings.renderOptions.cssHeuristic⟩ ('@' :: w) ++ "</p>"]) := by
  have hsource := TokenStream.ofSource_text settings.fencedDirectives settings.stuckLimit
    (s := mark ++ w) fun hhead => absurd (Option.some.inj hhead) (by decide)
  have hblank : ∀ c ∈ '@' :: w, isBlank c = false :=
    List.forall_mem_cons.mpr ⟨rfl, fun c hc => by simpa [isSolid] using hw c hc⟩
  have hstrip : strip ('@' :: w) = '@' :: w :=
    trim_eq_self (fun c hc => hblank c (List.mem_of_mem_head? hc))
      fun c hc => hblank c (List.mem_of_mem_getLast? hc)
  have hne : strip ('@' :: w) ≠ [] := by
    rw [hstrip]
    exact List.cons_ne_nil _ _
  have hpage := Renderer.page_paragraph host settings.renderOptions rfl
    (Document.children_escape settings.fencedDirectives hw) hne
  rw [hstrip] at hpage
  rw [compile_result hsource]
  exact congrArg (Compilation.finish none) hpage

/-- A plain word behind a doubled at sign.  Its page has one paragraph, which is what the inline passes make of
the word behind a single at sign; this is the word as it was written exactly if no style span is complete there,
and none is if the word does not begin like one.  The escape takes the at sign's meaning for directives only. -/
theorem compile_word_eq_iff (hw : Inline.IsPlainWord w) (host : Host) (settings : Settings)
    (verbosity : Int) :
    (compile host (.text (mark ++ w)) settings none verbosity).result =
        .ok (Renderer.assemble (settings.renderOptions.assets.tags host.files)
          ["<p>" ++ Inline.render ⟨.empty, settings.renderOptions.cssHeuristic⟩ ('@' :: w) ++ "</p>"]) ∧
      ((compile host (.text (mark ++ w)) settings none verbosity).result =
          .ok (Renderer.assemble (settings.renderOptions.assets.tags host.files) ["<p>@" ++ w ++ "</p>"]) ↔
        StyleSpan.read? ('@' :: w) = none) ∧
      (¬"(".toList <+: w → ¬"style(".toList <+: w → StyleSpan.read? ('@' :: w) = none) := by
  have hresult := compile_word hw.solid host settings verbosity
  have hopening : ¬"(".toList <+: w → ¬"style(".toList <+: w → StyleSpan.read? ('@' :: w) = none := by
    intro hshort hlong
    exact StyleSpan.read?_eq_none (fun h => hshort (List.cons_prefix_cons.mp h).2)
      fun h => hlong (List.cons_prefix_cons.mp h).2
  refine ⟨hresult, ?_, hopening⟩
  rw [hresult, ← hw.render_eq_self_iff ⟨.empty, settings.renderOptions.cssHeuristic⟩]
  constructor
  · intro heq
    have hparagraph := Renderer.assemble_singleton_inj (Except.ok.inj heq)
    have hopen : "<p>@".toList ++ w = "<p>" ++ '@' :: w := rfl
    rw [hopen] at hparagraph
    exact List.append_cancel_left (List.append_cancel_right hparagraph)
  · intro heq
    rw [heq]
    rfl

/-- An opening of a span that nothing closes is text. -/
theorem compile_word_eq_iff_opening :
    Inline.IsPlainWord "style(class=a)b" ∧ StyleSpan.read? "@style(class=a)b" = none ∧
      ∀ host settings verbosity,
        (compile host (.text "@@style(class=a)b") settings none verbosity).result =
          .ok (Renderer.assemble (settings.renderOptions.assets.tags host.files)
            ["<p>@style(class=a)b</p>"]) := by
  have hw : Inline.IsPlainWord "style(class=a)b" := ⟨by decide, by decide⟩
  have hread : StyleSpan.read? ('@' :: "style(class=a)b") = none := by decide +kernel
  have hsource : "@@style(class=a)b".toList = mark ++ "style(class=a)b" := rfl
  have hparagraph : "<p>@style(class=a)b</p>".toList = "<p>@" ++ "style(class=a)b" ++ "</p>" := rfl
  refine ⟨hw, hread, fun host settings verbosity => ?_⟩
  rw [hsource, hparagraph]
  exact (compile_word_eq_iff hw host settings verbosity).2.1.mpr hread

/-- An escaped word with a complete span is not literal. -/
theorem escaped_span_changes :
    Inline.IsPlainWord "(class=a)\x7bb\x7d" ∧
      (compile .plain (.text "@@(class=a)\x7bb\x7d") {} none 0).result =
        .ok (Renderer.assemble [] ["<p><span class=\"a\">b</span></p>"]) ∧
      (compile .plain (.text "@@(class=a)\x7bb\x7d") {} none 0).result ≠
        .ok (Renderer.assemble [] ["<p>@(class=a)\x7bb\x7d</p>"]) := by
  have hw : Inline.IsPlainWord "(class=a)\x7bb\x7d" := ⟨by decide, by decide⟩
  have hresult : (compile .plain (.text "@@(class=a)\x7bb\x7d") {} none 0).result =
      .ok (Renderer.assemble [] ["<p><span class=\"a\">b</span></p>"]) := by
    have hsource : "@@(class=a)\x7bb\x7d".toList = mark ++ "(class=a)\x7bb\x7d" := rfl
    have hparagraph : "<p>" ++ Inline.render {} ('@' :: "(class=a)\x7bb\x7d") ++ "</p>" =
        "<p><span class=\"a\">b</span></p>".toList := by
      decide +kernel
    rw [hsource, ← hparagraph]
    exact compile_word hw.solid .plain {} 0
  refine ⟨hw, hresult, ?_⟩
  rw [hresult]
  intro heq
  exact absurd (Renderer.assemble_singleton_inj (Except.ok.inj heq)) (by decide)

end Escape

end AtMark

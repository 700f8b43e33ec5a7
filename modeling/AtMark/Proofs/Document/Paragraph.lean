import AtMark.Proofs.Compilation
import AtMark.Proofs.Document.Block
import AtMark.Proofs.Render.Textless
import AtMark.Proofs.Token.Grammar
import AtMark.Proofs.Token.Header

/-!
# `Proofs.Document.Paragraph`: the paragraph behind a header

## What is proved

The text on a header's line is one content token, and a paragraph on the next line is one too.  The parser
gives a directive the content token behind it and cannot see where the line ended, so a header with nothing
else on its line takes the paragraph of the next one.  A page has no place for the text of metadata, of an
image or of a style sheet: there the paragraph is gone, and the page is that of the header alone
(`paragraph_behind_header`).

Anything else on the header's line stands in between.  A text there becomes the directive's own, and a closing
marker leaves both as one expects: only with such a marker is the directive without text and the paragraph
a node of its own.  That is an equivalence, up to a carriage return at the start of the paragraph's line, which the
trimmed text has lost and the node has not (`ParagraphLine.children_eq_iff`).

## What is not

Directives that bear a body, and headings: these are to take a text, and show it.  A paragraph of several lines is
several content tokens, of which the directive takes the first.
-/

namespace AtMark

open Text

variable {name head tail line s : Text} {items : List Parameter} {fenced : List Text}

/-! ## Lines of running text -/

/-- A line of running text: it is not blank, its first character behind the indentation is none of the
signs that begin a directive, a heading or a comment, and it holds no escape. -/
structure ParagraphLine (line : Text) : Prop where
  one_line : '\n' ∉ line
  not_blank : trim isTrailing line ≠ []
  no_sign : ∀ c ∈ (line.dropWhile isIndent).head?, c ≠ '@' ∧ c ≠ '#'
  no_escape : ¬Escape.mark <:+: line

namespace ParagraphLine

open Line

variable (h : ParagraphLine line)
include h

theorem text_ne_nil : trimEnd isTrailing (line.dropWhile isIndent) ≠ [] := by
  intro hnil
  refine h.not_blank (trim_eq_nil_iff.mpr fun c hc => ?_)
  by_contra hsolid
  have hsolid : isTrailing c = false := Bool.eq_false_iff.mpr hsolid
  have hindent : isIndent c = false := (Bool.or_eq_false_iff.mp hsolid).1
  rw [trimEnd_eq_nil_iff.mp hnil c (mem_dropWhile hc hindent)] at hsolid
  exact Bool.noConfusion hsolid

theorem tokens_prose : Prose.tokens (line.dropWhile isIndent) =
    [⟨.content, trimEnd isTrailing (line.dropWhile isIndent), false⟩] := by
  have hescape : ¬Escape.mark <:+: line.dropWhile isIndent :=
    fun hin => h.no_escape (hin.trans (List.dropWhile_suffix isIndent).isInfix)
  rw [Prose.tokens_eq hescape, Token.contentUnlessEmpty,
    if_neg fun hempty => h.text_ne_nil (List.isEmpty_iff.mp hempty)]

theorem ofLine_eq (hreturn : (line.dropWhile isIndent).head? ≠ some '\r') :
    LineForm.ofLine line = .prose (line.dropWhile isIndent) := by
  have hsign : ∀ c ∈ (trim isTrailing line).head?, c ≠ '@' ∧ c ≠ '#' := by
    intro c hc
    refine h.no_sign c ?_
    obtain ⟨t, ht⟩ := isPrefix_trimEnd isTrailing (line.dropWhile isIndent)
    rw [trim, dropWhile_isTrailing hreturn] at hc
    rw [← ht, List.head?_append, hc]
    rfl
  have hskipped : ¬(trim isTrailing line = [] ∨
      (Search.skip? "#:" (trim isTrailing line)).isSome) := by
    rintro (hnil | hcomment)
    · exact h.not_blank hnil
    · obtain ⟨t, ht⟩ := Option.isSome_iff_exists.mp hcomment
      rw [Search.skip?_eq_some_iff.mp ht] at hsign
      exact (hsign '#' rfl).2 rfl
  have hcloser : trim isTrailing line ≠ Token.endMarker := by
    intro hend
    rw [hend] at hsign
    exact (hsign '@' rfl).1 rfl
  unfold LineForm.ofLine
  dsimp only
  rw [if_neg hskipped, if_neg hcloser]
  exact LineForm.ofBody_eq_prose h.no_sign

/-- A carriage return may hide a comment or a closing marker at the start of the line; other than that it
reads as prose. -/
theorem ofLine_cases :
    (LineForm.ofLine line = .skipped ∨ LineForm.ofLine line = .closer) ∧
        (line.dropWhile isIndent).head? = some '\r' ∨
      LineForm.ofLine line = .prose (line.dropWhile isIndent) := by
  by_cases hreturn : (line.dropWhile isIndent).head? = some '\r'
  · unfold LineForm.ofLine
    dsimp only
    split
    · exact .inl ⟨.inl rfl, hreturn⟩
    · split
      · exact .inl ⟨.inr rfl, hreturn⟩
      · exact .inr (LineForm.ofBody_eq_prose h.no_sign)
  · exact .inr (h.ofLine_eq hreturn)

theorem ofLine_ne_directive (name : Text) : LineForm.ofLine line ≠ .directive name := by
  intro hform
  rcases h.ofLine_cases with ⟨h | h, -⟩ | h
  · exact LineForm.noConfusion (h.symm.trans hform)
  · exact LineForm.noConfusion (h.symm.trans hform)
  · exact LineForm.noConfusion (h.symm.trans hform)

theorem text_eq_iff : trimEnd isTrailing (line.dropWhile isIndent) = trim isTrailing line ↔
    (line.dropWhile isIndent).head? ≠ some '\r' := by
  constructor
  · intro heq hreturn
    obtain ⟨t, ht⟩ := isPrefix_trimEnd isTrailing (line.dropWhile isIndent)
    cases htext : trimEnd isTrailing (line.dropWhile isIndent) with
    | nil => exact h.text_ne_nil htext
    | cons c text =>
        rw [htext] at ht heq
        rw [← ht] at hreturn
        cases hreturn
        have hhead := head?_trim (s := line) (p := isTrailing) '\r' (by rw [← heq]; rfl)
        exact Bool.noConfusion hhead
  · intro hreturn
    rw [trim, dropWhile_isTrailing hreturn]

end ParagraphLine

/-! ## Behind a header -/

namespace TokenStream

/-- Lines of running text give a content token each, their text without its outer blanks. -/
theorem unguarded_paragraphs {lines : List Text}
    (h : ∀ line ∈ lines, ParagraphLine line ∧ (line.dropWhile isIndent).head? ≠ some '\r') (s : Text) :
    (unguarded fenced ⟨ofLines lines ++ s, none⟩).tokens =
      (lines.map (trim isTrailing)).map (⟨.content, ·, false⟩) ++
        (unguarded fenced ⟨s, none⟩).tokens := by
  induction lines with
  | nil => rfl
  | cons line lines ih =>
      obtain ⟨⟨hline, hreturn⟩, hlines⟩ := List.forall_mem_cons.mp h
      rw [ofLines_cons, List.append_assoc, List.cons_append,
        unguarded_line hline.one_line hline.ofLine_ne_directive, ih hlines, hline.ofLine_eq hreturn,
        Line.LineForm.tokens, hline.tokens_prose, hline.text_eq_iff.mpr hreturn]
      rfl

theorem unguarded_paragraph (hname : Directive.IsName name) (hfenced : name ∉ fenced)
    (hhead : Header name items head) (htail : '\n' ∉ tail) (hends : Header.Ends tail)
    (hline : ParagraphLine line) :
    (unguarded fenced ⟨head ++ (tail ++ '\n' :: (line ++ ['\n'])), none⟩).tokens =
      ⟨.directive, name, false⟩ :: (items.flatMap Parameter.tokens ++
        (Line.tailTokens (trim isTrailing tail) ++ (Line.LineForm.ofLine line).tokens)) := by
  rw [unguarded_header hname hfenced hhead htail hends,
    unguarded_line hline.one_line hline.ofLine_ne_directive, unguarded_nil, List.append_nil]

end TokenStream

/-! ## The document -/

namespace ParagraphLine

open Line

theorem children_behind (h : ParagraphLine line) (hbody : (Directive.kind name).bearsBody = false)
    (items : List Parameter) :
    ∃ text, (Document.ofTokens (⟨.directive, name, false⟩ ::
        (items.flatMap Parameter.tokens ++ (LineForm.ofLine line).tokens))).children =
          [⟨Directive.kind name, .ofList (items.map Parameter.entry), text, false, []⟩] ∧
      ((line.dropWhile isIndent).head? ≠ some '\r' → text = trim isTrailing line) := by
  rcases h.ofLine_cases with ⟨hform | hform, hreturn⟩ | hform
  · refine ⟨[], ?_, fun hne => absurd hreturn hne⟩
    rw [hform]
    exact Document.children_alone hbody items
  · refine ⟨[], ?_, fun hne => absurd hreturn hne⟩
    rw [hform, LineForm.tokens, Document.children_closed hbody, Document.children_nil]
  · refine ⟨trimEnd isTrailing (line.dropWhile isIndent), ?_, h.text_eq_iff.mpr⟩
    rw [hform, LineForm.tokens, h.tokens_prose, Document.children_text hbody, Document.children_nil]

theorem children_eq_iff (h : ParagraphLine line) :
    (Document.ofTokens (LineForm.ofLine line).tokens).children =
        [⟨.content, .empty, trim isTrailing line, false, []⟩] ↔
      (line.dropWhile isIndent).head? ≠ some '\r' := by
  rcases h.ofLine_cases with ⟨hform | hform, hreturn⟩ | hform
  · rw [hform, LineForm.tokens, Document.children_nil]
    exact ⟨nofun, fun hne => absurd hreturn hne⟩
  · rw [hform, LineForm.tokens, Document.children_blockEnd, Document.children_nil]
    exact ⟨nofun, fun hne => absurd hreturn hne⟩
  · rw [← h.text_eq_iff, hform, LineForm.tokens, h.tokens_prose, Document.children_content,
      Document.children_nil]
    constructor
    · intro heq
      exact congrArg Node.content (List.cons.inj heq).1
    · intro htext
      rw [htext]

/-- Behind a directive without a body, and what else stands on its line: a directive without a text and a
paragraph are read only if a closing marker stands in between. -/
theorem children_after_iff (h : ParagraphLine line) (hbody : (Directive.kind name).bearsBody = false)
    (items : List Parameter) (hs : ∀ c ∈ s.head?, isIndent c = false) :
    (Document.ofTokens (⟨.directive, name, false⟩ :: (items.flatMap Parameter.tokens ++
        (tailTokens s ++ (LineForm.ofLine line).tokens)))).children =
        [⟨Directive.kind name, .ofList (items.map Parameter.entry), [], false, []⟩,
         ⟨.content, .empty, trim isTrailing line, false, []⟩] ↔
      s = Token.endMarker ∧ (line.dropWhile isIndent).head? ≠ some '\r' := by
  rcases tailTokens_cases hs with ⟨rfl, hts⟩ | ⟨hend, hts⟩ | ⟨-, hend, own, owned, ts, hown, hts⟩
  · obtain ⟨text, hbehind, -⟩ := h.children_behind hbody items
    rw [hts, List.nil_append, hbehind]
    constructor
    · intro heq
      exact absurd (congrArg List.length heq) (by simp)
    · rintro ⟨hend, -⟩
      exact absurd hend (by decide)
  · rw [hts, List.singleton_append, Document.children_closed hbody, ← h.children_eq_iff]
    constructor
    · intro heq
      exact ⟨hend, (List.cons.inj heq).2⟩
    · rintro ⟨-, hchildren⟩
      rw [hchildren]
  · rw [hts, List.cons_append, Document.children_text hbody]
    constructor
    · intro heq
      exact absurd (congrArg Node.content (List.cons.inj heq).1) hown
    · rintro ⟨heq, -⟩
      exact absurd heq hend

end ParagraphLine

/-! ## The source -/

namespace Directive

theorem isName_of_mem_textless (h : name ∈ textless) : IsName name := by
  have hall : ∀ name ∈ textless, IsName name := by decide
  exact hall name h

end Directive

theorem Renderer.page_eq (host : Host) (options : RenderOptions) {ts us : List Token}
    {kind : NodeKind} {attributes : Table} {text : Text} (hkind : kind.isTextless = true)
    (hts : (Document.ofTokens ts).children = [⟨kind, attributes, text, false, []⟩])
    (hus : (Document.ofTokens us).children = [⟨kind, attributes, [], false, []⟩]) :
    ({ host, options } : Renderer).page (Document.ofTokens ts) =
      ({ host, options } : Renderer).page (Document.ofTokens us) := by
  have herase : Render.eraseTexts (Document.ofTokens ts) = Render.eraseTexts (Document.ofTokens us) := by
    show Node.mk .document .empty [] false ((Document.ofTokens ts).children.map Node.eraseText) =
      Node.mk .document .empty [] false ((Document.ofTokens us).children.map Node.eraseText)
    rw [hts, hus, List.map_singleton, List.map_singleton, Node.eraseText_of_isTextless hkind,
      Node.eraseText_of_isTextless hkind]
    rfl
  rw [← page_eraseTexts host options (d := Document.ofTokens ts) rfl, herase,
    page_eraseTexts host options rfl]

namespace TokenStream

/-- A paragraph behind a header.  It is a node of its own behind a directive without text exactly when the
header's line ends in a closing marker of its own.  When nothing else stands on that line, the directive takes
it: the document has one node, and the page is that of the header alone. -/
theorem paragraph_behind_header {settings : Settings} (hname : name ∈ Directive.textless)
    (hfenced : name ∉ settings.fencedDirectives) (hhead : Header name items head)
    (htail : '\n' ∉ tail) (hends : Header.Ends tail) (hline : ParagraphLine line) :
    ∃ stream, ofSource settings.fencedDirectives settings.stuckLimit
        (.text (head ++ (tail ++ '\n' :: (line ++ ['\n'])))) = .ok stream ∧
      ((Document.ofTokens stream.tokens).children =
          [⟨Directive.kind name, .ofList (items.map Parameter.entry), [], false, []⟩,
           ⟨.content, .empty, trim isTrailing line, false, []⟩] ↔
        trim isTrailing tail = Token.endMarker ∧ (line.dropWhile isIndent).head? ≠ some '\r') ∧
      (trim isTrailing tail = [] →
        (∃ text, (Document.ofTokens stream.tokens).children =
            [⟨Directive.kind name, .ofList (items.map Parameter.entry), text, false, []⟩] ∧
          ((line.dropWhile isIndent).head? ≠ some '\r' → text = trim isTrailing line)) ∧
        ∀ host plugins verbosity,
          (compile host (.text (head ++ (tail ++ '\n' :: (line ++ ['\n'])))) settings plugins
              verbosity).result =
            (compile host (.text (head ++ (tail ++ ['\n']))) settings plugins verbosity).result) := by
  have hisName := Directive.isName_of_mem_textless hname
  have htextless := Directive.isTextless_of_mem_textless hname
  have hbody := NodeKind.bearsBody_of_isTextless htextless
  have hsource : ∀ s, ofSource settings.fencedDirectives settings.stuckLimit (.text (head ++ s)) =
      .ok (counted (unguarded settings.fencedDirectives ⟨head ++ s, none⟩)) :=
    fun s => ofSource_text _ _ (hhead.head?_ne_mark hisName s)
  have htokens := unguarded_paragraph hisName hfenced hhead htail hends hline
  refine ⟨_, hsource _, ?_, fun hnil => ?_⟩
  · show (Document.ofTokens (unguarded _ _).tokens).children = _ ↔ _
    rw [htokens]
    exact hline.children_after_iff hbody items
      fun c hc => (Bool.or_eq_false_iff.mp (head?_trim c hc)).1
  · obtain ⟨text, hbehind, htext⟩ := hline.children_behind hbody items
    have halone := unguarded_header hisName hfenced hhead htail hends []
    have hheader := Document.children_alone hbody items
    rw [hnil, Line.tailTokens_nil, List.nil_append] at htokens halone
    rw [unguarded_nil] at halone
    rw [← htokens] at hbehind
    rw [← halone] at hheader
    refine ⟨⟨text, hbehind, htext⟩, fun host plugins verbosity => ?_⟩
    rw [compile_result (hsource _), compile_result (hsource _)]
    exact congrArg _ (Renderer.page_eq host _ htextless hbehind hheader)

theorem paragraph_behind_header_image :
    "@image".toList ∈ Directive.textless ∧ "@image".toList ∉ ({} : Settings).fencedDirectives ∧
      Header "@image" [⟨"src", "a.png", false⟩] "@image(src=a.png)" ∧ Header.Ends [] ∧
      ParagraphLine "Next paragraph" ∧
      ∃ stream, ofSource ({} : Settings).fencedDirectives ({} : Settings).stuckLimit
          (.text "@image(src=a.png)\nNext paragraph\n") = .ok stream ∧
        (Document.ofTokens stream.tokens).children =
          [⟨.media, .ofList [("src", "a.png")], "Next paragraph", false, []⟩] ∧
        ∀ host plugins verbosity,
          (compile host (.text "@image(src=a.png)\nNext paragraph\n") {} plugins verbosity).result =
            (compile host (.text "@image(src=a.png)\n") {} plugins verbosity).result := by
  have hname : "@image".toList ∈ Directive.textless := by decide
  have hfenced : "@image".toList ∉ ({} : Settings).fencedDirectives := by decide
  have hhead : Header "@image" [⟨"src", "a.png", false⟩] "@image(src=a.png)" :=
    .list (by decide) (by decide +kernel)
  have hends : Header.Ends [] := fun c hc => absurd hc (by simp)
  have hline : ParagraphLine "Next paragraph" :=
    ⟨by decide, by decide, by rintro c ⟨⟩; decide,
     fun h => absurd (h.subset List.mem_cons_self) (by decide)⟩
  obtain ⟨stream, hstream, -, hblank⟩ :=
    paragraph_behind_header hname hfenced hhead List.not_mem_nil hends hline
  obtain ⟨⟨text, hchildren, htext⟩, hpage⟩ := hblank rfl
  rw [htext (by decide)] at hchildren
  exact ⟨hname, hfenced, hhead, hends, hline, stream, hstream, hchildren, hpage⟩

/-- An image and the paragraph on the line behind it do not become two nodes. -/
theorem image_takes_paragraph :
    Header "@image" [⟨"src", "a.png", false⟩] "@image(src=a.png)" ∧ ParagraphLine "Next paragraph" ∧
      ∃ stream, ofSource Directive.defaultFenced defaultLimit
          (.text "@image(src=a.png)\nNext paragraph\n") = .ok stream ∧
        (Document.ofTokens stream.tokens).children ≠
          [⟨.media, .ofList [("src", "a.png")], [], false, []⟩,
           ⟨.content, .empty, "Next paragraph", false, []⟩] := by
  have hhead : Header "@image" [⟨"src", "a.png", false⟩] "@image(src=a.png)" :=
    .list (by decide) (by decide +kernel)
  have hline : ParagraphLine "Next paragraph" :=
    ⟨by decide, by decide, by rintro c ⟨⟩; decide,
     fun h => absurd (h.subset List.mem_cons_self) (by decide)⟩
  have htokens : (unguarded Directive.defaultFenced ⟨"@image(src=a.png)\nNext paragraph\n", none⟩).tokens
      = ⟨.directive, "@image", false⟩ :: ([⟨"src", "a.png", false⟩].flatMap Parameter.tokens ++
          (Line.tailTokens [] ++ (Line.LineForm.ofLine "Next paragraph").tokens)) :=
    unguarded_paragraph (by decide) (by decide) hhead List.not_mem_nil
      (fun c hc => absurd hc (by simp)) hline
  refine ⟨hhead, hline, _, ofSource_text _ _ (by decide), fun heq => ?_⟩
  replace heq : (Document.ofTokens (unguarded Directive.defaultFenced
      ⟨"@image(src=a.png)\nNext paragraph\n", none⟩).tokens).children = _ := heq
  rw [htokens] at heq
  have hafter := (hline.children_after_iff rfl [⟨"src", "a.png", false⟩]
    (fun c hc => absurd hc (by simp))).mp heq
  exact absurd hafter.1 (by decide)

end TokenStream
end AtMark

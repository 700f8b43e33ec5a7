import AtMark.Proofs.Compilation
import AtMark.Proofs.Document.Concatenation
import AtMark.Proofs.Token.Concatenation
import AtMark.Proofs.Token.Header

/-!
# `Proofs.Document.Heading`: three ways to write a heading

## What is proved

A heading is written with hash signs, as a directive with its level, or as a directive that is closed on its
own line (`HeadingForm`).  Between lines that leave nothing open the three forms make one document: the nodes of the
lines before, the heading, and the nodes of the lines behind (`TokenStream.heading_forms`).  The page of a source
depends on its document, so the three also have one page, or fail alike, on every host and with every plugin.

## How

The line reader takes the hash signs and the text in one piece; a directive it reads by its name, its list and what
stands behind that.  The tokens differ in who made them, the source or the reader, and in a closing marker behind the
text (`HeadingForm.scan`).  A node keeps neither of the two: a heading bears no body, so the marker belongs to nothing
and leaves no node, and of the tokens' flags only that of the text is kept (`HeadingForm.children_tokens`).

## What it takes

The text is not empty, has no outer blanks, and does not end in a closing marker unless that is escaped
(`IsHeadingText`).  With an empty text a directive would take the content of the next line, which a line of hash signs
does not.  The lines before leave nothing open: in a list or a fence none of the three would be a heading.
-/

namespace AtMark

open Text

/-- The ways to write a heading on a line. -/
inductive HeadingForm where
  /-- As many hash signs as the level says. -/
  | hashes
  /-- The directive with its level. -/
  | directive
  /-- The directive, closed on its own line. -/
  | closed
deriving DecidableEq, Repr

/-- A text that each form can hold: one line with no blanks around it, where an `@end` that is last has its
at sign doubled. -/
structure IsHeadingText (text : Text) : Prop where
  one_line : '\n' ∉ text
  ne_nil : text ≠ []
  stripped : strip text = text
  no_marker : Token.endMarker <:+ text → '@' :: Token.endMarker <:+ text

namespace HeadingForm

/-- The directive with its level. -/
def header (level : Nat) : Text :=
  "@heading" ++ '(' :: ("level" ++ '=' :: (Text.ofNat level ++ [')']))

/-- The line of a heading, without its indentation. -/
def line (form : HeadingForm) (level : Nat) (text : Text) : Text :=
  match form with
  | hashes => List.replicate level '#' ++ ' ' :: text
  | directive => header level ++ ' ' :: text
  | closed => header level ++ ' ' :: (text ++ " @end")

/-- The tokens of the line; with hash signs the reader makes those of the header. -/
def tokens (form : HeadingForm) (level : Nat) (text : Text) : List Token :=
  ⟨.directive, "@heading", form = hashes⟩ :: ⟨.parameterKey, "level", form = hashes⟩ ::
    ⟨.parameterValue, Text.ofNat level, form = hashes⟩ :: Escape.contentToken text ::
      if form = closed then [Token.blockEnd] else []

/-- The node of a heading. -/
def node (level : Nat) (text : Text) : Node :=
  ⟨.heading, .ofList [("level", Text.ofNat level)], Escape.resolve text, Escape.occursIn text, []⟩

end HeadingForm

/-! ## The header of the directive -/

namespace Parameters

variable {key value : Text}

theorem scan_bare (hkey : Name.IsName key) (hvalue : ∀ c ∈ value, isBare c = true)
    (hquote : value.head? ≠ some '"') (rest : Text) :
    scan (key ++ '=' :: (value ++ ')' :: rest)) = ⟨[⟨key, value, false⟩], rest, true⟩ := by
  have hbehind : ∀ d ∈ ('=' :: (value ++ ')' :: rest)).head?, Name.isNameChar d = false := by
    rintro d ⟨⟩
    rfl
  have hparen : ∀ d ∈ (')' :: rest).head?, isBare d = false := by
    rintro d ⟨⟩
    rfl
  have hstart : (value ++ ')' :: rest).dropWhile isIndent = value ++ ')' :: rest := by
    cases value with
    | nil => rfl
    | cons d value =>
        refine List.dropWhile_cons_of_neg fun hd => ?_
        have hbare := hvalue d List.mem_cons_self
        rw [isBare, isBlank_of_isIndent hd] at hbare
        exact Bool.noConfusion hbare
  have hhead : ((value ++ ')' :: rest).dropWhile isIndent).head? ≠ some '"' := by
    rw [hstart]
    cases value with
    | nil => exact fun h => absurd (Option.some.inj h) (by decide)
    | cons d value => exact hquote
  have hread : readAssigned ('=' :: (value ++ ')' :: rest)) = ⟨value, false, ')' :: rest⟩ := by
    show readValue (value ++ ')' :: rest) = _
    rw [readValue_of_head hhead, hstart, takeWhile_append_of_head hvalue hparen,
      dropWhile_append_of_head hvalue hparen]
  rw [scan_item hkey hbehind, hread, scan, if_pos rfl]
  rfl

end Parameters

namespace HeadingForm

variable {level : Nat} {c : Char}

theorem isDigit_of_mem (h : c ∈ Text.ofNat level) : c.isDigit = true :=
  Nat.isDigit_of_mem_toDigits (by decide) (by decide) h

theorem isBare_of_mem (h : c ∈ Text.ofNat level) : Parameters.isBare c = true := by
  have hdigit := isDigit_of_mem h
  have hblank : isBlank c = false := by
    refine Name.isBlank_eq_false ?_
    rw [Name.isNameChar, Char.isAlphanum, hdigit, Bool.or_true, Bool.true_or, Bool.true_or]
  have hcomma : c ≠ ',' := by
    rintro rfl
    exact absurd hdigit (by decide)
  have hparen : c ≠ ')' := by
    rintro rfl
    exact absurd hdigit (by decide)
  rw [Parameters.isBare, hblank, bne_iff_ne.mpr hcomma, bne_iff_ne.mpr hparen]
  rfl

theorem isHeader (level : Nat) :
    Header "@heading" [⟨"level", Text.ofNat level, false⟩] (header level) := by
  have hdigits : '\n' ∉ Text.ofNat level := fun h => absurd (isDigit_of_mem h) (by decide)
  have hquote : (Text.ofNat level).head? ≠ some '"' := fun h =>
    absurd (isDigit_of_mem (List.mem_of_mem_head? h)) (by decide)
  refine .list ?_ (Parameters.scan_bare (by decide) (fun _ => isBare_of_mem) hquote [])
  refine List.not_mem_append (by decide) fun h => ?_
  rcases List.mem_append.mp ((List.mem_cons.mp h).resolve_left (by decide)) with h | h
  · exact hdigits h
  · exact absurd h (by decide)

end HeadingForm

/-! ## The text -/

namespace IsHeadingText

variable {text : Text} (h : IsHeadingText text)
include h

theorem isBlank_head : ∀ c ∈ text.head?, isBlank c = false := by
  rw [← h.stripped]
  exact head?_trim

theorem isBlank_last : ∀ c ∈ text.getLast?, isBlank c = false := by
  rw [← h.stripped]
  exact getLast?_trim

theorem trim_space : trim isTrailing (' ' :: text) = text :=
  trim_append_of_ends (t := [' ']) (by decide) (fun c hc => isTrailing_eq_false (h.isBlank_head c hc))
    fun c hc => isTrailing_eq_false (h.isBlank_last c hc)

theorem tailTokens_eq : Line.tailTokens text = [Escape.contentToken text] := by
  unfold Line.tailTokens
  cases hcut : Search.cutEnd? Token.endMarker text with
  | none => exact if_neg h.ne_nil
  | some front =>
      obtain rfl := Search.cutEnd?_eq_some_iff.mp hcut
      obtain ⟨before, hbefore⟩ := h.no_marker (List.suffix_append front Token.endMarker)
      have hfront : front = before ++ ['@'] := by
        refine List.append_cancel_right (show front ++ Token.endMarker = _ ++ Token.endMarker from ?_)
        rw [← hbefore, List.append_assoc]
        rfl
      have hdoubled : front.getLast? = some '@' := by rw [hfront, List.getLast?_concat]
      exact if_pos hdoubled

theorem trim_space_closed : trim isTrailing (' ' :: (text ++ " @end")) = text ++ " @end" := by
  have hhead : ∀ c ∈ (text ++ " @end").head?, isTrailing c = false := by
    intro c hc
    rw [List.head?_append_of_ne_nil _ h.ne_nil] at hc
    exact isTrailing_eq_false (h.isBlank_head c hc)
  have hlast : ∀ c ∈ (text ++ " @end").getLast?, isTrailing c = false := by
    intro c hc
    rw [List.getLast?_append_of_ne_nil _ (by decide)] at hc
    cases hc
    rfl
  exact trim_append_of_ends (t := [' ']) (by decide) hhead hlast

/-- A marker behind the text, with a blank in between, is no part of it. -/
theorem tailTokens_closed :
    Line.tailTokens (text ++ " @end") = [Escape.contentToken text, Token.blockEnd] := by
  have hcut : Search.cutEnd? Token.endMarker (text ++ " @end") = some (text ++ [' ']) := by
    rw [Search.cutEnd?_eq_some_iff, List.append_assoc]
    rfl
  have hdoubled : (text ++ [' ']).getLast? ≠ some '@' := by
    rw [List.getLast?_concat]
    decide
  have hbody : trimEnd isIndent (text ++ [' ']) = text := by
    rw [trimEnd_append_of_all (by decide)]
    exact trimEnd_eq_self fun c hc => isIndent_eq_false (h.isBlank_last c hc)
  unfold Line.tailTokens
  rw [hcut]
  dsimp only
  rw [if_neg hdoubled, hbody, if_neg h.ne_nil]
  rfl

end IsHeadingText

/-! ## The step at the line -/

namespace HeadingForm

variable {level : Nat} {text indent behind : Text} {fenced : List Text}

theorem takeWhile_hashes (level : Nat) (text : Text) :
    (List.replicate level '#' ++ ' ' :: text).takeWhile (· == '#') = List.replicate level '#' :=
  takeWhile_append_of_head (fun c hc => beq_iff_eq.mpr (List.eq_of_mem_replicate hc)) fun c hc => by
    cases hc
    rfl

theorem dropWhile_hashes (level : Nat) (text : Text) :
    (List.replicate level '#' ++ ' ' :: text).dropWhile (· == '#') = ' ' :: text :=
  dropWhile_append_of_head (fun c hc => beq_iff_eq.mpr (List.eq_of_mem_replicate hc)) fun c hc => by
    cases hc
    rfl

theorem heading?_hashes (hlevel : 1 ≤ level ∧ level ≤ 6) (h : IsHeadingText text) :
    Line.heading? (List.replicate level '#' ++ ' ' :: text) = some (level, text) := by
  have hspace : (' ' :: text).dropWhile isIndent = text :=
    dropWhile_append_of_head (s := [' ']) (by decide) fun c hc => isIndent_eq_false (h.isBlank_head c hc)
  unfold Line.heading?
  dsimp only
  rw [takeWhile_hashes, dropWhile_hashes, List.length_replicate, hspace, h.stripped,
    if_pos ⟨hlevel.1, hlevel.2, rfl⟩]

/-- A line of hash signs is no comment: behind the first sign there is another or a blank. -/
theorem ofLine_hashes (hlevel : 1 ≤ level ∧ level ≤ 6) (h : IsHeadingText text)
    (hindent : ∀ c ∈ indent, isIndent c = true) :
    Line.LineForm.ofLine (indent ++ (List.replicate level '#' ++ ' ' :: text)) = .heading level text := by
  have hheading := heading?_hashes hlevel h
  have hlast : ∀ c ∈ (List.replicate level '#' ++ ' ' :: text).getLast?, isTrailing c = false := by
    intro c hc
    rw [List.append_cons, List.getLast?_append_of_ne_nil _ h.ne_nil] at hc
    exact isTrailing_eq_false (h.isBlank_last c hc)
  obtain ⟨n, rfl⟩ : ∃ n, level = n + 1 := ⟨level - 1, (Nat.sub_add_cancel hlevel.1).symm⟩
  refine Line.LineForm.ofLine_hash hindent hlast ?_ hheading
  cases n with
  | zero => exact fun hcolon => absurd (Option.some.inj hcolon) (by decide)
  | succ n => exact fun hcolon => absurd (Option.some.inj hcolon) (by decide)

theorem scan_header (hfenced : "@heading".toList ∉ fenced) (hindent : ∀ c ∈ indent, isIndent c = true)
    (hbehind : ∀ c ∈ behind.head?, c = '\n') (level : Nat) {tail : Text} (htail : '\n' ∉ tail) :
    Line.scan fenced (indent ++ (header level ++ ' ' :: tail ++ behind)) =
      ⟨[⟨.directive, "@heading", false⟩, ⟨.parameterKey, "level", false⟩,
          ⟨.parameterValue, Text.ofNat level, false⟩] ++ Line.tailTokens (trim isTrailing (' ' :: tail)), [],
        ⟨behind.drop 1, none⟩⟩ := by
  have hname : Directive.IsName "@heading" := by decide
  have hspace : '\n' ∉ ' ' :: tail := fun h => htail ((List.mem_cons.mp h).resolve_left (by decide))
  have hends : Header.Ends (' ' :: tail ++ behind) := by
    rintro c ⟨⟩
    exact ⟨rfl, by decide⟩
  rw [List.append_assoc]
  exact Header.scan_unfenced hname hfenced (isHeader level) hindent hspace hbehind hends

/-- Each form is read as its tokens, at any indentation and with any lines behind it. -/
theorem scan (form : HeadingForm) (hfenced : "@heading".toList ∉ fenced) (hlevel : 1 ≤ level ∧ level ≤ 6)
    (h : IsHeadingText text) (hindent : ∀ c ∈ indent, isIndent c = true)
    (hbehind : ∀ c ∈ behind.head?, c = '\n') :
    Line.scan fenced (indent ++ (form.line level text ++ behind)) =
      ⟨form.tokens level text, [], ⟨behind.drop 1, none⟩⟩ := by
  cases form with
  | hashes =>
      have hform := ofLine_hashes hlevel h hindent
      have hline : '\n' ∉ indent ++ (List.replicate level '#' ++ ' ' :: text) := by
        refine List.not_mem_append (fun hc => Bool.noConfusion (hindent '\n' hc)) ?_
        refine List.not_mem_append (fun hc => absurd (List.eq_of_mem_replicate hc) (by decide)) ?_
        exact fun hc => h.one_line ((List.mem_cons.mp hc).resolve_left (by decide))
      have hscan := Line.scan_line fenced
        (s := indent ++ (List.replicate level '#' ++ ' ' :: text) ++ behind)
      rw [firstLine_append_of_head hline hbehind, afterLine_append_of_head hline hbehind, hform] at hscan
      rw [line, ← List.append_assoc, hscan nofun, Line.LineForm.tokens, Line.headingTokens, if_neg h.ne_nil]
      rfl
  | directive =>
      rw [line, scan_header hfenced hindent hbehind level h.one_line, h.trim_space, h.tailTokens_eq]
      rfl
  | closed =>
      have htail : '\n' ∉ text ++ " @end" := List.not_mem_append h.one_line (by decide)
      rw [line, scan_header hfenced hindent hbehind level htail, h.trim_space_closed, h.tailTokens_closed]
      rfl

end HeadingForm

/-! ## The node -/

theorem Document.children_pairs (name : Text) (hbody : (Directive.kind name).bearsBody = false) (made : Bool)
    {pairs : List (Token × Token)}
    (hpairs : ∀ p ∈ pairs, p.1.kind = .parameterKey ∧ p.2.kind = .parameterValue)
    (text : Text) (owned : Bool) (ts : List Token) :
    (ofTokens (⟨.directive, name, made⟩ ::
        (pairs.flatMap (fun p => [p.1, p.2]) ++ ⟨.content, text, owned⟩ :: ts))).children =
      ⟨Directive.kind name, .ofList (pairs.map fun p => (p.1.lexeme, p.2.lexeme)), text, owned, []⟩ ::
        (ofTokens ts).children := by
  have hhead : ∀ t ∈ ((⟨.content, text, owned⟩ : Token) :: ts).head?, t.kind ≠ .parameterKey := by
    rintro t ⟨⟩
    exact TokenKind.noConfusion
  have hread := DirectiveBlock.read_unbodied hbody (DirectiveBlock.readParameters_append pairs hpairs hhead)
  show (Block.ofTokens _).filterMap Block.node? = _
  rw [Block.ofTokens_directive rfl, hread]
  rfl

namespace HeadingForm

theorem tokens_head (form : HeadingForm) (level : Nat) (text : Text) :
    ∀ t ∈ (form.tokens level text).head?, t.kind = .directive := by
  rintro t ⟨⟩
  rfl

theorem children_tokens (form : HeadingForm) (level : Nat) (text : Text) (ts : List Token) :
    (Document.ofTokens (form.tokens level text ++ ts)).children =
      node level text :: (Document.ofTokens ts).children := by
  have hkinds : ∀ p ∈ [((⟨.parameterKey, "level", form = hashes⟩ : Token),
      (⟨.parameterValue, Text.ofNat level, form = hashes⟩ : Token))],
      p.1.kind = .parameterKey ∧ p.2.kind = .parameterValue := by
    intro p hp
    rw [List.mem_singleton.mp hp]
    exact ⟨rfl, rfl⟩
  have hblock := Document.children_pairs "@heading" rfl (form = hashes) hkinds
    (Escape.resolve text) (Escape.occursIn text) ((if form = closed then [Token.blockEnd] else []) ++ ts)
  refine hblock.trans ?_
  split
  · exact congrArg _ (Document.children_blockEnd ts)
  · rfl

end HeadingForm

/-! ## Between other lines -/

namespace TokenStream

variable {fenced : List Text} {level : Nat} {text indent before behind : Text} {limit : Int}
  {first : TokenStream}

/-- Lines that leave nothing open, a heading, and what stands behind its line are read one after the other. -/
theorem unguarded_heading (form : HeadingForm) (hfenced : "@heading".toList ∉ fenced)
    (hlevel : 1 ≤ level ∧ level ≤ 6) (htext : IsHeadingText text) (hindent : ∀ c ∈ indent, isIndent c = true)
    (hbehind : ∀ c ∈ behind.head?, c = '\n') (hbefore : EndsLine before)
    (hsilent : (unguarded fenced ⟨before, none⟩).notices = []) :
    (unguarded fenced ⟨before ++ (indent ++ (form.line level text ++ behind)), none⟩).tokens =
      (unguarded fenced ⟨before, none⟩).tokens ++
        (form.tokens level text ++ (unguarded fenced ⟨behind.drop 1, none⟩).tokens) := by
  have hne : indent ++ (form.line level text ++ behind) ≠ [] := by
    refine List.append_ne_nil_of_right_ne_nil _ (List.append_ne_nil_of_left_ne_nil ?_ _)
    cases form with
    | hashes => exact List.append_ne_nil_of_right_ne_nil _ (List.cons_ne_nil _ _)
    | directive => exact List.cons_ne_nil _ _
    | closed => exact List.cons_ne_nil _ _
  have hstep : (LineReader.markup fenced).step ⟨indent ++ (form.line level text ++ behind), none⟩ =
      ⟨form.tokens level text, [], ⟨behind.drop 1, none⟩⟩ :=
    form.scan hfenced hlevel htext hindent hbehind
  have hline : unguarded fenced ⟨indent ++ (form.line level text ++ behind), none⟩ = _ :=
    unguarded_step fenced hne
  have happ : unguarded fenced ⟨before ++ (indent ++ (form.line level text ++ behind)), none⟩ = _ :=
    unguarded_append _ hbefore hsilent
  rw [happ, hline, hstep, after]

/-- A heading may be written with hash signs, as a directive or as a directive closed on its line.  Behind lines
that close all lists and fences that they open, at any indentation and before any lines, each form makes the
same document: the nodes of the lines before, the heading, and the nodes of the lines behind.  So whatever the
host, the settings, the plugins and the verbosity, each makes the same page. -/
theorem heading_forms (hfenced : "@heading".toList ∉ fenced) (hlevel : 1 ≤ level ∧ level ≤ 6)
    (htext : IsHeadingText text) (hindent : ∀ c ∈ indent, isIndent c = true) (hbefore : EndsLine before)
    (hfirst : ofText fenced limit before = .ok first) (hsettled : first.Settled)
    (hbehind : ∀ c ∈ behind.head?, c = '\n') :
    ∃ last document,
      ofText fenced limit (behind.drop 1) = .ok last ∧
      document.children = (Document.ofTokens first.tokens).children ++
        HeadingForm.node level text :: (Document.ofTokens last.tokens).children ∧
      ∀ (form : HeadingForm) (source : Source),
        source.decode = before ++ (indent ++ (form.line level text ++ behind)) →
        (∀ limit, ∃ stream, ofSource fenced limit source = .ok stream ∧
          Document.ofTokens stream.tokens = document) ∧
        ∀ host settings plugins verbosity, settings.fencedDirectives = fenced →
          (compile host source settings plugins verbosity).result =
            Compilation.finish plugins
              (({ host, options := settings.renderOptions } : Renderer).page document) := by
  rw [ofText_eq] at hfirst
  cases hfirst
  have hsilent := notices_eq_nil_of_settled hsettled
  refine ⟨_, ⟨.document, .empty, [], false, _⟩, ofText_eq .., rfl, fun form source hsource => ?_⟩
  have hdocument : Document.ofTokens (unguarded fenced ⟨source.decode, none⟩).tokens =
      ⟨.document, .empty, [], false,
        (Document.ofTokens (unguarded fenced ⟨before, none⟩).tokens).children ++
          HeadingForm.node level text ::
            (Document.ofTokens (unguarded fenced ⟨behind.drop 1, none⟩).tokens).children⟩ := by
    rw [hsource, unguarded_heading form hfenced hlevel htext hindent hbehind hbefore hsilent]
    refine congrArg (Node.mk .document .empty [] false) ?_
    have hboundary : IsBoundary (form.tokens level text ++
        (unguarded fenced ⟨behind.drop 1, none⟩).tokens) := form.tokens_head level text
    have hnodes := Block.nodes_append hboundary (unguarded fenced ⟨before, none⟩).tokens
    exact hnodes.trans (congrArg _ (form.children_tokens level text _))
  refine ⟨fun limit => ⟨_, ofSource_eq .., hdocument⟩, ?_⟩
  rintro host settings plugins verbosity rfl
  rw [compile_result (ofSource_eq ..) host plugins verbosity]
  exact congrArg (fun d => Compilation.finish plugins
    (({ host, options := settings.renderOptions } : Renderer).page d)) hdocument

/-- Behind a closed fence and an image without a text, whose list runs over two lines. -/
theorem heading_forms_behind_list :
    "@heading".toList ∉ Directive.defaultFenced ∧ (1 ≤ 3 ∧ 3 ≤ 6) ∧ IsHeadingText "(a) ## @@@b @@end" ∧
      (∀ c ∈ " \t".toList, isIndent c = true) ∧ EndsLine "@code\n@x(\n@end\n@image(\n src=z)\n" ∧
      (∀ c ∈ "\nc".toList.head?, c = '\n') ∧
      HeadingForm.hashes.line 3 "(a) ## @@@b @@end" = "### (a) ## @@@b @@end".toList ∧
      HeadingForm.directive.line 3 "(a) ## @@@b @@end" = "@heading(level=3) (a) ## @@@b @@end".toList ∧
      HeadingForm.closed.line 3 "(a) ## @@@b @@end" = "@heading(level=3) (a) ## @@@b @@end @end".toList ∧
      ∀ host settings plugins verbosity, settings.fencedDirectives = Directive.defaultFenced →
        ∃ result, ∀ form : HeadingForm,
          (compile host
            (.text ("@code\n@x(\n@end\n@image(\n src=z)\n".toList ++
              (" \t".toList ++ (form.line 3 "(a) ## @@@b @@end" ++ "\nc".toList))))
            settings plugins verbosity).result = result := by
  have hfenced : "@heading".toList ∉ Directive.defaultFenced := by decide
  have hlevel : 1 ≤ 3 ∧ 3 ≤ 6 := by decide
  have htext : IsHeadingText "(a) ## @@@b @@end" :=
    ⟨by decide, by decide, by decide, fun _ => ⟨"(a) ## @@@b ", rfl⟩⟩
  have hindent : ∀ c ∈ " \t".toList, isIndent c = true := by decide
  have hbefore : EndsLine "@code\n@x(\n@end\n@image(\n src=z)\n" := by
    unfold EndsLine
    decide
  have hbehind : ∀ c ∈ "\nc".toList.head?, c = '\n' := by
    rintro c ⟨⟩
    rfl
  have hfirst := ofText_eq Directive.defaultFenced defaultLimit "@code\n@x(\n@end\n@image(\n src=z)\n"
  have hsettled : (counted (unguarded Directive.defaultFenced
      ⟨"@code\n@x(\n@end\n@image(\n src=z)\n", none⟩)).Settled := by
    decide +kernel
  obtain ⟨last, document, -, -, hforms⟩ :=
    heading_forms hfenced hlevel htext hindent hbefore hfirst hsettled hbehind
  refine ⟨hfenced, hlevel, htext, hindent, hbefore, hbehind, rfl, rfl, rfl, ?_⟩
  intro host settings plugins verbosity hsettings
  exact ⟨_, fun form => (hforms form _ rfl).2 host settings plugins verbosity hsettings⟩

end TokenStream
end AtMark

import AtMark.Proofs.Html.Tag
import AtMark.Proofs.Render.Builtin

/-!
# `Proofs.Render.Value`: values stay in their places

## What is proved

Addresses, texts for missing images, styles, classes, titles and metadata come from the document, and whoever reads
the page has to find each of them in the place it was meant for.  Images, style sheets, styled texts and blocks,
spans and the lines of the head are each written by a template of their own.  Every one of them is read with no more
signs than its template has, and with its values unchanged (`values_kept_in_place`).

## How

A tag is put together from attributes, of which some are left out when they are missing and some also when they are
empty (`opens_optionalAttr`, `opens_nonemptyAttr`).  From that alone follows how it is read: this is
`Tag.shown_of_opens`, and here each template only has to be seen to be such a tag.  The title stands between tags and
not inside one, so it has a lemma of its own (`reads_titleElement`).

## What is not

That a value is harmless in itself.  An address is kept as it was written, whatever it leads to, and so is a style.
Nor is this about texts in the body of a page: there the inline passes write tags on purpose, and what they do to a
value in a tag is in `Proofs.Inline.Attribute`.
-/

namespace AtMark.Render

open Html Search

variable {ctx : RenderContext} {n : Node}

/-! ## Attributes that may be missing -/

/-- An attribute, if it has a value. -/
def placed (name : Text) (value : Option Text) : List (Text × Text) :=
  value.toList.map fun v => (name, v)

section Placed

variable {start s : Text} {attributes : List (Text × Text)}

/-- A tag goes on with an attribute that may be missing. -/
theorem opens_optionalAttr (h : Tag.Opens start attributes s) (name : Text) (hname : IsFixed name)
    (value : Option Text) :
    Tag.Opens start (attributes ++ placed name value) (s ++ SpanAttributes.optionalAttr name value) := by
  cases value with
  | none =>
      rw [SpanAttributes.optionalAttr, List.append_nil]
      exact (List.append_nil attributes).symm ▸ h
  | some v => exact h.attr name hname v

/-- A tag goes on with an attribute that is missing if its value is empty, too. -/
theorem opens_nonemptyAttr (h : Tag.Opens start attributes s) (name : Text) (hname : IsFixed name)
    (value : Option Text) :
    Tag.Opens start (attributes ++ placed name (value.filter (· ≠ [])))
      (s ++ SpanAttributes.nonemptyAttr name value) := by
  have hattr : SpanAttributes.nonemptyAttr name value =
      SpanAttributes.optionalAttr name (value.filter (· ≠ [])) := by
    cases value with
    | none => rfl
    | some v =>
        rw [SpanAttributes.nonemptyAttr, Option.filter_some]
        by_cases hv : v = []
        · rw [if_pos hv, if_neg (by simp [hv])]
          rfl
        · rw [if_neg hv, if_pos (decide_eq_true hv)]
          rfl
  rw [hattr]
  exact opens_optionalAttr h name hname _

end Placed

/-! ## The tags of the body -/

/-- The tag of an image. -/
def imageTag (n : Node) : Tag where
  name := "img"
  attributes := ("src", (n.attribute? "src").getD []) :: placed "alt" (n.attribute? "alt")
  ending := " /"

/-- The tag of a link to a style sheet. -/
def linkTag (address : Text) : Tag where
  name := "link"
  attributes := [("rel", "stylesheet"), ("href", address)]

/-- The opening tag of a text in a style of its own. -/
def inlineStyleTag (n : Node) : Tag where
  name := "span"
  attributes := [("style", Style.inlineStyle n.attributes)]

/-- The opening tag of a block, with its classes if it has some. -/
def blockTag (aliases : Table) (n : Node) : Tag where
  name := "div"
  attributes := placed "class" ((classesOf aliases n).filter (· ≠ []))

/-- The opening tag of a span. -/
def spanTag (ctx : SpanContext) (a : SpanAttributes) : Tag where
  name := "span"
  attributes :=
    placed "class" ((a.classText ctx).filter (· ≠ [])) ++ placed "style" ((a.styleText ctx).filter (· ≠ [])) ++
      placed "data-on-click" a.onClick ++ placed "data-on-hover" a.onHover ++ placed "data-on-focus" a.onFocus

theorem exists_shown_image (h : n.kind = .media) :
    ∃ html, (builtin.render ctx n).html = .ok html ∧ Tag.Shown html (imageTag n) := by
  have hsrc := (Tag.Opens.nil "<img").attr "src" (by decide) (attributeOrEmpty n "src")
  obtain ⟨kind, attributes, content, owned, children⟩ := n
  obtain rfl : kind = .media := h
  exact ⟨_, rfl, Tag.shown_of_opens (opens_optionalAttr hsrc "alt" (by decide) _) (by decide)⟩

theorem shown_styleSheetLink (address : Text) : Tag.Shown (styleSheetLink address) (linkTag address) := by
  have hrel := (Tag.Opens.nil "<link").attr "rel" (by decide) "stylesheet"
  have hstart : "<link rel=\"stylesheet\"".toList = "<link" ++ attr "rel" "stylesheet" := by decide
  rw [← hstart] at hrel
  exact Tag.shown_of_opens (hrel.attr "href" (by decide) address) (by decide)

theorem exists_shown_styleSheet (h : n.kind = .styleSheet) :
    ∃ html, (builtin.render ctx n).html = .ok html ∧
      Tag.Shown html (linkTag ((n.attribute? "href").getD [])) := by
  obtain ⟨kind, attributes, content, owned, children⟩ := n
  obtain rfl : kind = .styleSheet := h
  exact ⟨_, rfl, shown_styleSheetLink _⟩

theorem styleMode_eq_inline (h : n.attribute? "mode" = some "inline".toList) : styleMode n = .inline := by
  have hglobal : n.attribute? Style.modeKey ≠ some "global".toList := by
    rw [Style.modeKey, h]
    decide
  rw [styleMode, if_neg hglobal]
  exact if_pos h

theorem styleMode_eq_block (hinline : n.attribute? "mode" ≠ some "inline".toList)
    (hglobal : n.attribute? "mode" ≠ some "global".toList) : styleMode n = .block := by
  rw [← Style.modeKey] at hinline hglobal
  rw [styleMode, if_neg hglobal, if_neg hinline]

theorem exists_opening_inlineStyle (hkind : n.kind = .style) (hmode : n.attribute? "mode" = some "inline".toList) :
    ∃ opening, (builtin.render ctx n).html = .ok (opening ++ n.content ++ "</span>") ∧
      Tag.Shown opening (inlineStyleTag n) := by
  have hstyle := (Tag.Opens.nil "<span").attr "style" (by decide) (Style.inlineStyle n.attributes)
  refine ⟨"<span" ++ attr "style" (Style.inlineStyle n.attributes) ++ ">", ?_, Tag.shown_of_opens hstyle (by decide)⟩
  obtain ⟨kind, attributes, content, owned, children⟩ := n
  obtain rfl : kind = .style := hkind
  exact congrArg Rendering.html (style_inline (styleMode_eq_inline hmode) ctx)

theorem exists_opening_block (hkind : n.kind = .style) (hinline : n.attribute? "mode" ≠ some "inline".toList)
    (hglobal : n.attribute? "mode" ≠ some "global".toList) :
    ∃ opening, (builtin.render ctx n).html = .ok (opening ++ n.content ++ "</div>") ∧
      Tag.Shown opening (blockTag ctx.aliases n) := by
  have hclass := opens_nonemptyAttr (Tag.Opens.nil "<div") "class" (by decide) (classesOf ctx.aliases n)
  refine ⟨"<div" ++ SpanAttributes.nonemptyAttr "class" (classesOf ctx.aliases n) ++ ">", ?_,
    Tag.shown_of_opens hclass (by decide)⟩
  obtain ⟨kind, attributes, content, owned, children⟩ := n
  obtain rfl : kind = .style := hkind
  exact congrArg Rendering.html (style_block (styleMode_eq_block hinline hglobal) ctx)

theorem shown_openTag (ctx : SpanContext) (a : SpanAttributes) : Tag.Shown (a.openTag ctx) (spanTag ctx a) := by
  have hclass := opens_nonemptyAttr (Tag.Opens.nil "<span") "class" (by decide) (a.classText ctx)
  have hstyle := opens_nonemptyAttr hclass "style" (by decide) (a.styleText ctx)
  have hclick := opens_optionalAttr hstyle "data-on-click" (by decide) a.onClick
  have hhover := opens_optionalAttr hclick "data-on-hover" (by decide) a.onHover
  have hfocus := opens_optionalAttr hhover "data-on-focus" (by decide) a.onFocus
  exact Tag.shown_of_opens hfocus (by decide)

/-! ## The lines of the head -/

variable {line : Text} {entries : List (Text × Text)}

/-- The tag of metadata that is no title. -/
def metaTag (key value : Text) : Tag where
  name := "meta"
  attributes := [("name", key), ("content", value)]

theorem shown_metaElement (key value : Text) : Tag.Shown (metaElement key value) (metaTag key value) := by
  have hname := (Tag.Opens.nil "<meta").attr "name" (by decide) key
  exact Tag.shown_of_opens (hname.attr "content" (by decide) value) (by decide)

/-- A title is read between the tags of its element. -/
theorem reads_titleElement (title : Text) :
    Reads (titleElement title) "<><>" [[], "title", title, "/title", []] :=
  .element (by decide) (by decide) (by decide) (by decide)

/-- A line of metadata shows one of the entries. -/
theorem mem_metadataLines {titled : Bool} (h : line ∈ metadataLines titled entries) :
    (∃ title, ("title".toList, title) ∈ entries ∧ line = titleElement title) ∨
      ∃ key value, (key, value) ∈ entries ∧ line = metaElement key value := by
  induction entries generalizing titled with
  | nil => exact absurd h List.not_mem_nil
  | cons e entries ih =>
      obtain ⟨key, value⟩ := e
      have hrest : ∀ {titled}, line ∈ metadataLines titled entries →
          (∃ title, ("title".toList, title) ∈ (key, value) :: entries ∧ line = titleElement title) ∨
            ∃ k v, (k, v) ∈ (key, value) :: entries ∧ line = metaElement k v := by
        intro titled hline
        rcases ih hline with ⟨title, hmem, heq⟩ | ⟨k, v, hmem, heq⟩
        · exact .inl ⟨title, List.mem_cons_of_mem _ hmem, heq⟩
        · exact .inr ⟨k, v, List.mem_cons_of_mem _ hmem, heq⟩
      rw [metadataLines] at h
      split at h
      · next hkey =>
        split at h
        · exact hrest h
        · rcases List.mem_cons.mp h with rfl | h
          · exact .inl ⟨value, hkey ▸ List.mem_cons_self, rfl⟩
          · exact hrest h
      · split at h
        · exact hrest h
        · rcases List.mem_cons.mp h with rfl | h
          · exact .inr ⟨key, value, List.mem_cons_self, rfl⟩
          · exact hrest h

theorem mem_of_defaultCss {address : Text} (h : defaultCss entries = some address) :
    ("default_css".toList, address) ∈ entries := by
  rw [defaultCss, Option.filter_eq_some_iff] at h
  obtain ⟨⟨key, value⟩, hlast, rfl⟩ := Option.map_eq_some_iff.mp h.1
  obtain ⟨hmem, hkey⟩ := List.mem_filter.mp (List.mem_of_getLast? hlast)
  have hkey : key = "default_css".toList := of_decide_eq_true hkey
  exact hkey ▸ hmem

/-! ## All of them -/

/-- No value of a document breaks out of its place.

An escaped text has neither brackets nor quotes, each of its ampersands begins an entity, and with the entities
replaced it is the text again; escaping is replacing, first the ampersand, then the other four.  Therefore images,
style sheets, opening tags of styles and spans, and the title, the metadata and the default style sheet in the head
are read with the signs of their templates only, and between them with the values as they were given. -/
theorem values_kept_in_place :
    (∀ s : Text, (∀ c ∈ escape s, c ≠ '<' ∧ c ≠ '>' ∧ c ≠ '"' ∧ c ≠ '\'') ∧
      (∀ front rest, escape s = front ++ '&' :: rest → ∃ e ∈ entities, e.1 <+: '&' :: rest) ∧
      unescape (escape s) = s ∧
      escape s = replaceAll "&#x27;" "&#39;" (substitutions.foldl (fun s e => replaceAll [e.1] e.2 s) s)) ∧
    (∀ (ctx : RenderContext) (n : Node), n.kind = .media →
      ∃ html, (builtin.render ctx n).html = .ok html ∧ Tag.Shown html (imageTag n)) ∧
    (∀ (ctx : RenderContext) (n : Node), n.kind = .styleSheet →
      ∃ html, (builtin.render ctx n).html = .ok html ∧
        Tag.Shown html (linkTag ((n.attribute? "href").getD []))) ∧
    (∀ (ctx : RenderContext) (n : Node), n.kind = .style → n.attribute? "mode" = some "inline".toList →
      ∃ opening, (builtin.render ctx n).html = .ok (opening ++ n.content ++ "</span>") ∧
        Tag.Shown opening (inlineStyleTag n)) ∧
    (∀ (ctx : RenderContext) (n : Node), n.kind = .style → n.attribute? "mode" ≠ some "inline".toList →
      n.attribute? "mode" ≠ some "global".toList →
      ∃ opening, (builtin.render ctx n).html = .ok (opening ++ n.content ++ "</div>") ∧
        Tag.Shown opening (blockTag ctx.aliases n)) ∧
    (∀ (ctx : SpanContext) (a : SpanAttributes), Tag.Shown (a.openTag ctx) (spanTag ctx a)) ∧
    ∀ (files : Files) (options : RenderOptions) (d : Node),
      ∃ lines, head files options d = lines ++ styleElement (globalRules d) ++ options.assets.tags files ∧
        ∀ line ∈ lines,
          (∃ title, ("title".toList, title) ∈ metadata d ∧
            Reads line "<><>" [[], "title", title, "/title", []]) ∨
          (∃ key value, (key, value) ∈ metadata d ∧ Tag.Shown line (metaTag key value)) ∨
          ∃ address, ("default_css".toList, address) ∈ metadata d ∧ Tag.Shown line (linkTag address) := by
  refine ⟨fun s => ⟨fun c hc => ?_, fun front rest => exists_entity_of_ampersand, unescape_escape s,
    escape_eq_replaceAll s⟩, fun ctx n => exists_shown_image,
    fun ctx n => exists_shown_styleSheet,
    fun ctx n => exists_opening_inlineStyle, fun ctx n => exists_opening_block, shown_openTag, ?_⟩
  · exact ⟨ne_of_mem_escape hc (by decide) (by decide), ne_of_mem_escape hc (by decide) (by decide),
      ne_of_mem_escape hc (by decide) (by decide), ne_of_mem_escape hc (by decide) (by decide)⟩
  · intro files options d
    refine ⟨_, rfl, fun line hline => ?_⟩
    rcases List.mem_append.mp hline with hline | hline
    · rcases mem_metadataLines hline with ⟨title, hmem, rfl⟩ | ⟨key, value, hmem, rfl⟩
      · exact .inl ⟨title, hmem, reads_titleElement title⟩
      · exact .inr (.inl ⟨key, value, hmem, shown_metaElement key value⟩)
    · obtain ⟨address, haddress, rfl⟩ := List.mem_map.mp hline
      exact .inr (.inr ⟨address, mem_of_defaultCss (Option.mem_toList.mp haddress), shown_styleSheetLink address⟩)

/-- A value of signs, quotes and entities in each of the places. -/
theorem values_kept_in_place_signs :
    let value : Text := "\"><b x='&lt;'>&"
    let written : Text := "&quot;&gt;&lt;b x=&#39;&amp;lt;&#39;&gt;&amp;"
    let ctx : RenderContext := bare .plain {} (.ofList [("note", value)])
    let image : Node := ⟨.media, .ofList [("alt", value), ("src", value)], [], false, []⟩
    let sheet : Node := ⟨.styleSheet, .ofList [("href", value)], [], false, []⟩
    let text : Node := ⟨.style, .ofList [("mode", "inline"), ("color", value)], "x", true, []⟩
    let block : Node := ⟨.style, .ofList [("name", "note")], "x", true, []⟩
    let d : Node := ⟨.document, .empty, [], false,
      [⟨.metadata, .ofList [(value, value), ("title", value), ("default_css", value)], [], false, []⟩]⟩
    let metaLine : Text := "<meta name=\"" ++ written ++ "\" content=\"" ++ written ++ "\">"
    (escape value = written ∧ written = "&quot;&gt;&lt;b x=&#39;" ++ '&' :: "amp;lt;&#39;&gt;&amp;" ∧
      ∃ e ∈ entities, e.1 <+: '&' :: "amp;lt;&#39;&gt;&amp;".toList) ∧
    (image.kind = .media ∧
      (∃ html, (builtin.render ctx image).html = .ok html ∧ Tag.Shown html (imageTag image)) ∧
      (imageTag image).places = [[], "img src=", value, " alt=", value, " /", []]) ∧
    (sheet.kind = .styleSheet ∧
      ∃ html, (builtin.render ctx sheet).html = .ok html ∧ Tag.Shown html (linkTag value)) ∧
    (text.kind = .style ∧ text.attribute? "mode" = some "inline".toList ∧
      ∃ opening, (builtin.render ctx text).html = .ok (opening ++ text.content ++ "</span>") ∧
        Tag.Shown opening (inlineStyleTag text)) ∧
    (block.kind = .style ∧ block.attribute? "mode" ≠ some "inline".toList ∧
      block.attribute? "mode" ≠ some "global".toList ∧
      (∃ opening, (builtin.render ctx block).html = .ok (opening ++ block.content ++ "</div>") ∧
        Tag.Shown opening (blockTag ctx.aliases block)) ∧
      (blockTag ctx.aliases block).attributes = [("class".toList, value)]) ∧
    metaLine ∈ head .empty {} d ∧
      ((∃ title, ("title".toList, title) ∈ metadata d ∧
          Reads metaLine "<><>" [[], "title", title, "/title", []]) ∨
        (∃ key value, (key, value) ∈ metadata d ∧ Tag.Shown metaLine (metaTag key value)) ∨
        ∃ address, ("default_css".toList, address) ∈ metadata d ∧ Tag.Shown metaLine (linkTag address)) := by
  intro value written ctx image sheet text block d metaLine
  obtain ⟨hescape, himage, hsheet, hinline, hblock, -, hhead⟩ := values_kept_in_place
  have hwritten : escape value = written := by decide +kernel
  have hampersand : written = "&quot;&gt;&lt;b x=&#39;" ++ '&' :: "amp;lt;&#39;&gt;&amp;" := by decide +kernel
  have hmode : text.attribute? "mode" = some "inline".toList := by decide +kernel
  have hnoInline : block.attribute? "mode" ≠ some "inline".toList := by decide +kernel
  have hnoGlobal : block.attribute? "mode" ≠ some "global".toList := by decide +kernel
  obtain ⟨lines, hlines, hread⟩ := hhead .empty {} d
  have hmem : metaLine ∈ head .empty {} d := by decide +kernel
  have hnone : styleElement (globalRules d) ++ ({} : RenderOptions).assets.tags .empty = [] := by
    decide +kernel
  have hline : metaLine ∈ lines := by
    rwa [hlines, List.append_assoc, hnone, List.append_nil] at hmem
  exact ⟨⟨hwritten, hampersand, (hescape value).2.1 _ _ (hwritten.trans hampersand)⟩,
    ⟨rfl, himage ctx image rfl, by decide +kernel⟩, ⟨rfl, hsheet ctx sheet rfl⟩,
    ⟨rfl, hmode, hinline ctx text rfl hmode⟩,
    ⟨rfl, hnoInline, hnoGlobal, hblock ctx block rfl hnoInline hnoGlobal, by decide +kernel⟩,
    hmem, hread metaLine hline⟩

end AtMark.Render

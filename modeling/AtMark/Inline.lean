import AtMark.Inline.Emphasis
import AtMark.Inline.Link
import AtMark.Inline.StyleSpan

/-!
# `Inline`: markup inside paragraphs and headings

Inline text goes through four passes: code spans, style spans, links and emphasis.  Code comes first and is
passed over by the style pass and by the emphasis pass; emphasis comes last so that it also applies to the
labels of links.
-/

namespace AtMark.Inline

/-- Emphasis outside code. -/
def emphasise (s : Text) : Text :=
  CodeRegion.mapOutside Emphasis.render s

/-- Inline text as HTML. -/
def render (ctx : SpanContext) (s : Text) : Text :=
  emphasise (Link.render (StyleSpan.render ctx (CodeSpan.render s)))

/-- What is reported when inline text is rendered. -/
def notices (ctx : SpanContext) (s : Text) : List Notice :=
  StyleSpan.notices ctx (CodeSpan.render s)

end AtMark.Inline

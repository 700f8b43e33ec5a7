import AtMark.Inline
import AtMark.Render.Handler
import AtMark.Style.Inline
import AtMark.Text.Numeral

/-!
# `Render.Block`: the kinds of nodes that the library renders

Headings and paragraphs hold inline text.  Code, mathematics and styled blocks are put into the page as they
stand, except that code in a named language may be coloured.  That is the work of the host's highlighter, and the
only thing here that can fail.
-/

namespace AtMark.Render

open Text

/-! ## Headings -/

/-- The level of a heading: the number given, brought into the range from one to six; one without a
number. -/
def headingLevel (raw : Option Text) : Nat :=
  match raw.bind integer? with
  | some n => (max 1 (min 6 n)).toNat
  | none => 1

/-- What is reported about the level of a heading. -/
def levelNotices (raw : Option Text) : List Notice :=
  match raw with
  | none => []
  | some s => if (integer? s).isSome then [] else [.invalidLevel s]

/-- The level that a heading asks for. -/
def levelAttribute (n : Node) : Option Text :=
  n.attribute? "level"

/-- Headings. -/
def heading : Handler := fun ctx n =>
  let level := ofNat (headingLevel (levelAttribute n))
  .of ("<h" ++ level ++ ">" ++ Inline.render ctx.span (stripEnd n.content) ++ "</h" ++ level ++ ">")
    (levelNotices (levelAttribute n) ++ Inline.notices ctx.span (stripEnd n.content))

/-! ## Paragraphs -/

/-- Paragraphs; a blank one leaves nothing. -/
def paragraph : Handler := fun ctx n =>
  if strip n.content = [] then .of [] []
  else
    .of ("<p>" ++ Inline.render ctx.span (strip n.content) ++ "</p>")
      (Inline.notices ctx.span (strip n.content))

/-! ## Code, mathematics, images and style sheets -/

/-- The language that code is coloured in, if it is. -/
def colouredAs (ctx : RenderContext) (n : Node) : Option Text :=
  if ctx.options.highlightCode then (n.attribute? "language").filter (· ≠ []) else none

/-- Code, coloured or verbatim.  What the highlighter does not know is reported before it sets to work. -/
def code : Handler := fun ctx n =>
  match colouredAs ctx n with
  | some language =>
    ⟨(ctx.host.highlighter.colour language n.content).mapError .highlighter,
      ctx.host.highlighter.notices language⟩
  | none => .of ("<pre><code>" ++ n.content ++ "</code></pre>") []

/-- Mathematics. -/
def math : Handler := fun _ n =>
  .of ("<div class=\"math\">" ++ n.content ++ "</div>") []

/-- The value of an attribute, empty if it is missing. -/
def attributeOrEmpty (n : Node) (key : Text) : Text :=
  (n.attribute? key).getD []

/-- Images. -/
def media : Handler := fun _ n =>
  .of ("<img" ++ Html.attr "src" (attributeOrEmpty n "src") ++
    SpanAttributes.optionalAttr "alt" (n.attribute? "alt") ++ " />") []

/-- A link to a style sheet. -/
def styleSheetLink (address : Text) : Text :=
  "<link rel=\"stylesheet\"" ++ Html.attr "href" address ++ ">"

/-- Style sheets. -/
def styleSheet : Handler := fun _ n =>
  .of (styleSheetLink (attributeOrEmpty n "href")) []

/-! ## Styles -/

/-- What a style directive is for. -/
inductive StyleMode where
  | global
  | inline
  | block
deriving DecidableEq, Repr

/-- The mode of a style directive. -/
def styleMode (n : Node) : StyleMode :=
  if n.attribute? Style.modeKey = some "global".toList then .global
  else if n.attribute? Style.modeKey = some "inline".toList then .inline
  else .block

/-- The value of an attribute, unless it is missing or empty. -/
def nonempty? (n : Node) (key : Text) : Option Text :=
  (n.attribute? key).filter (· ≠ [])

/-- The classes that a styled block names itself. -/
def ownClasses (n : Node) : Option Text :=
  (nonempty? n "classes").or (nonempty? n "class")

/-- The classes of a styled block: those it names itself, else those its name stands for. -/
def classesOf (aliases : Table) (n : Node) : Option Text :=
  (ownClasses n).or ((n.attribute? "name").bind aliases.get?)

/-- What is reported about the classes of a styled block. -/
def classNotices (aliases : Table) (n : Node) : List Notice :=
  if (ownClasses n).isSome then []
  else ((n.attribute? "name").filter fun name => (aliases.get? name).isNone).toList.map
    Notice.unresolvedAlias

/-- Style directives: global rules leave nothing in the body. -/
def style : Handler := fun ctx n =>
  match styleMode n with
  | .global => .of [] []
  | .inline =>
    .of ("<span" ++ Html.attr "style" (Style.inlineStyle n.attributes) ++ ">" ++ n.content ++ "</span>") []
  | .block =>
    .of ("<div" ++ SpanAttributes.nonemptyAttr "class" (classesOf ctx.aliases n) ++ ">" ++ n.content ++ "</div>")
      (classNotices ctx.aliases n)

/-! ## The registry -/

/-- What the library itself registers.  The root of a document is not rendered as a node. -/
def builtin : Registry
  | .document => none
  | .heading => some ⟨"Section heading, level 1-6", some heading, false⟩
  | .content => some ⟨"Paragraph of prose", some paragraph, false⟩
  | .codeBlock => some ⟨"Preformatted code block", some code, false⟩
  | .math => some ⟨"Display math", some math, false⟩
  | .media => some ⟨"Image", some media, false⟩
  | .styleSheet => some ⟨"External stylesheet", some styleSheet, false⟩
  | .style => some ⟨"Global CSS rules, inline styled span, or classed block", some style, false⟩
  | .metadata => some ⟨"Document metadata (title, meta tags, default_css)", none, true⟩
  | .styleDef => some ⟨"Style alias definitions (alias: class list)", none, true⟩

end AtMark.Render

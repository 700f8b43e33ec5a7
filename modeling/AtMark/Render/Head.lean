import AtMark.Render.Block
import AtMark.Style.Rule

/-!
# `Render.Head`: the head of a page

The head is gathered from the whole tree: the title and the tags of the metadata in their order, one default
style sheet, the global style rules, and the vendored assets.
-/

namespace AtMark.Render

/-- The key of the title among the metadata. -/
def titleKey : Text := "title"

/-- The key of the default style sheet among the metadata. -/
def defaultCssKey : Text := "default_css"

/-- The title element. -/
def titleElement (title : Text) : Text :=
  "<title>" ++ Html.escape title ++ "</title>"

/-- A tag of metadata. -/
def metaElement (key value : Text) : Text :=
  "<meta" ++ Html.attr "name" key ++ Html.attr "content" value ++ ">"

/-- The attributes of all metadata, in the order of the document. -/
def metadata (document : Node) : List (Text × Text) :=
  (document.ofKind .metadata).flatMap fun n => n.attributes.entries

/-- The lines of metadata, given whether the page has its title already.  Only the first title counts. -/
def metadataLines (titled : Bool) : List (Text × Text) → List Text
  | [] => []
  | (key, value) :: rest =>
    if key = titleKey then
      if titled then metadataLines titled rest else titleElement value :: metadataLines true rest
    else if key = defaultCssKey then metadataLines titled rest
    else metaElement key value :: metadataLines titled rest

/-- The default style sheet that metadata name; the last one counts, and an empty one is none. -/
def defaultCss (entries : List (Text × Text)) : Option Text :=
  (((entries.filter fun e => e.1 = defaultCssKey).getLast?).map Prod.snd).filter (· ≠ [])

/-- The bodies of global styles, in the order of the document. -/
def globalStyles (document : Node) : List Text :=
  ((document.ofKind .style).filter fun n => styleMode n = .global).map (·.content)

/-- The rules of global styles. -/
def globalRules (document : Node) : List Text :=
  (globalStyles document).flatMap Style.rules

/-- Rules in a style element; none without rules. -/
def styleElement (rules : List Text) : List Text :=
  if rules = [] then [] else ["<style>".toList] ++ rules ++ ["</style>".toList]

/-- The lines of the head. -/
def head (files : Files) (options : RenderOptions) (document : Node) : List Text :=
  metadataLines false (metadata document) ++
    (defaultCss (metadata document)).toList.map styleSheetLink ++
    styleElement (globalRules document) ++ options.assets.tags files

/-- What is reported about the head. -/
def headNotices (files : Files) (options : RenderOptions) (document : Node) : List Notice :=
  (globalStyles document).flatMap Style.ruleNotices ++ options.assets.notices files

end AtMark.Render

import AtMark.Render.Head
import AtMark.Style.Alias

/-!
# `Render.Page`: the page of a document

A renderer holds its options, what is registered, and the aliases of the document it rendered last.  A page
begins by gathering the aliases of its own document afresh, so nothing is carried from one document to the
next except what was registered.

The nodes of the body are rendered one after the other.  If one of them cannot be rendered there is no page, and
those behind it are not looked at.
-/

namespace AtMark

/-- A renderer of documents. -/
structure Renderer where
  host : Host
  options : RenderOptions := {}
  registry : Registry := Render.builtin
  aliases : Table := .empty

namespace Renderer

/-- What the handler of a node is given. -/
def context (r : Renderer) : RenderContext :=
  r.registry.context r.host r.options r.aliases r.host.nesting

/-- Registers a kind of node. -/
def register (r : Renderer) (kind : NodeKind) (spec : HandlerSpec) : Renderer :=
  { r with registry := r.registry.register kind spec }

/-- The bodies of style definitions, in the order of the document. -/
def definitions (document : Node) : List Text :=
  (document.ofKind .styleDef).map (·.content)

/-- The aliases of a document. -/
def aliasesOf (document : Node) : Table :=
  (definitions document).foldl Style.extendAliases .empty

/-- The renderer with the aliases of a document. -/
def collect (r : Renderer) (document : Node) : Renderer :=
  { r with aliases := aliasesOf document }

/-- Renders a node. -/
def node (r : Renderer) (n : Node) : Rendering :=
  r.registry.render r.context n

/-- The lines of the head. -/
def head (r : Renderer) (document : Node) : List Text :=
  Render.head r.host.files r.options document

/-- The lines that nodes leave, up to the first one that cannot be rendered. -/
def linesOf (render : Node → Rendering) : List Node → Except RenderFault (List Text)
  | [] => .ok []
  | n :: rest => do
    let html ← (render n).html
    let lines ← linesOf render rest
    return if html = [] then lines else html :: lines

/-- What is reported about nodes, up to the first one that cannot be rendered. -/
def noticesOf (render : Node → Rendering) : List Node → List Notice
  | [] => []
  | n :: rest =>
    (render n).notices ++
      match (render n).html with
      | .ok _ => noticesOf render rest
      | .error _ => []

/-- The lines of the body: the nodes that leave something. -/
def body (r : Renderer) (document : Node) : Except RenderFault (List Text) :=
  linesOf r.node document.children

/-- The classes of a styled block. -/
def classes (r : Renderer) (n : Node) : Option Text :=
  Render.classesOf r.aliases n

/-- Inline text as HTML. -/
def inline (r : Renderer) (s : Text) : Text :=
  Inline.render r.context.span s

/-- Lines, each with its newline. -/
def unlines (lines : List Text) : Text :=
  lines.flatMap fun line => line ++ ['\n']

/-- A page of a head and a body. -/
def assemble (head body : List Text) : Text :=
  "<!DOCTYPE html>\n<html>\n<head>\n" ++ unlines head ++ "</head>\n<body>\n" ++ unlines body ++
    "</body>\n</html>\n"

/-- The page of a document. -/
def page (r : Renderer) (document : Node) : Except RenderFault Text :=
  let r := r.collect document
  (r.body document).map (assemble (r.head document))

/-- What is reported when the page of a document is made. -/
def notices (r : Renderer) (document : Node) : List Notice :=
  let r := r.collect document
  [.rendering] ++ (definitions document).flatMap Style.aliasNotices ++
    [.aliasesCollected r.aliases.entries.length] ++ Render.headNotices r.host.files r.options document ++
    noticesOf r.node document.children

end Renderer
end AtMark

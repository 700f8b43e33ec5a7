import AtMark.Render.Page

/-!
# `Render.Session`: a renderer in use

A renderer is asked for one thing after the other: the page of a document, parts of a page, single nodes or
texts, and to take a registration.  Each request is answered from what the renderer holds.  The page of a
document leaves the document's aliases behind, and later requests for parts of a page are answered with them.
-/

namespace AtMark

/-- What a renderer can be asked for. -/
inductive RenderRequest where
  | page (document : Node)
  | node (n : Node)
  | head (document : Node)
  | body (document : Node)
  | inline (text : Text)
  | classes (n : Node)
  | register (kind : NodeKind) (spec : HandlerSpec)

/-- What a renderer answers. -/
inductive RenderAnswer where
  | html (text : Text)
  | lines (lines : List Text)
  | classes (list : Option Text)
  | registered
  | failed (fault : RenderFault)
deriving DecidableEq, Repr

/-- The answer that a result makes. -/
def RenderAnswer.ofResult {α : Type} (shown : α → RenderAnswer) : Except RenderFault α → RenderAnswer
  | .ok a => shown a
  | .error fault => .failed fault

namespace Renderer

/-- The renderer after a request, and its answer.  A page leaves its document's aliases behind even if it cannot be
made. -/
def answer (r : Renderer) : RenderRequest → Renderer × RenderAnswer
  | .page document => (r.collect document, .ofResult .html (r.page document))
  | .node n => (r, .ofResult .html (r.node n).html)
  | .head document => (r, .lines (r.head document))
  | .body document => (r, .ofResult .lines (r.body document))
  | .inline text => (r, .html (r.inline text))
  | .classes n => (r, .classes (r.classes n))
  | .register kind spec => (r.register kind spec, .registered)

/-- The renderer after some requests. -/
def afterAll (r : Renderer) (requests : List RenderRequest) : Renderer :=
  requests.foldl (fun r request => (r.answer request).1) r

end Renderer
end AtMark

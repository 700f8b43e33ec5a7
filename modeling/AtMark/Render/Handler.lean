import AtMark.Host
import AtMark.Inline.SpanAttributes
import AtMark.Node
import AtMark.Render.Options

/-!
# `Render.Handler`: who renders a kind of node

A registry tells for each kind of node whether something renders it, whether it belongs to the head of the
page only, or whether nothing is known of it.  Registering a kind again replaces what was there.

A handler is given the renderer as it stands: its options, its aliases and its registry (`RenderContext`).  So it may
have other nodes rendered, of any kind, by whatever is registered for them at the time, and the handlers of those may
do so again.  What is registered holds handlers and handlers are given what is registered; the circle is cut by depth.
A handler at the last depth is still given the registry, but every handler in it fails (`Registry.context`).

A handler answers and does nothing else.  It does not register anything, does not change the aliases, and keeps
nothing from one node to the next.
-/

namespace AtMark

/-- Why a node cannot be rendered: the highlighter has failed, a handler has failed, each with what it says, or too
many handlers are at work inside each other. -/
inductive RenderFault where
  | highlighter (report : Text)
  | handler (report : Text)
  | nesting
deriving DecidableEq, Repr

/-- What the rendering of a node yields: its HTML or why there is none, and what is reported on the way. -/
structure Rendering where
  html : Except RenderFault Text
  notices : List Notice

/-- A rendering that succeeds. -/
def Rendering.of (html : Text) (notices : List Notice) : Rendering :=
  ⟨.ok html, notices⟩

/-- What is registered for a kind of node, with a handler of some type. -/
structure Spec (H : Type) where
  description : Text
  handler : Option H := none
  headOnly : Bool := false

/-- What is registered with another handler in the place of the first. -/
def Spec.map {H K : Type} (f : H → K) (spec : Spec H) : Spec K :=
  ⟨spec.description, spec.handler.map f, spec.headOnly⟩

/-- The registered kinds. -/
abbrev Specs (H : Type) := NodeKind → Option (Spec H)

namespace Specs

/-- Registers a kind, in place of what was registered for it. -/
def register {H : Type} (specs : Specs H) (kind : NodeKind) (spec : Spec H) : Specs H :=
  fun k => if k = kind then some spec else specs k

/-- What stands in the page for a node that nothing renders. -/
def unhandled (kind : NodeKind) : Text :=
  "<!-- Unhandled node: " ++ kind.name ++ " -->"

/-- Renders a node: a kind that belongs to the head only leaves nothing, and one that nothing renders a comment. -/
def render (specs : Specs (Node → Rendering)) (n : Node) : Rendering :=
  match specs n.kind with
  | none => .of (unhandled n.kind) [.noHandler n.kind]
  | some spec =>
    if spec.headOnly then .of [] [.headOnly n.kind spec.description]
    else
      match spec.handler with
      | some handler => handler n
      | none => .of (unhandled n.kind) [.noHandler n.kind]

end Specs

/-- What a handler is given: where it runs, the options, the aliases collected so far, and what is registered, its
handlers ready to be called. -/
structure RenderContext where
  host : Host
  options : RenderOptions
  aliases : Table
  registered : Specs (Node → Rendering)

/-- What inline text depends on. -/
def RenderContext.span (ctx : RenderContext) : SpanContext :=
  ⟨ctx.aliases, ctx.options.cssHeuristic⟩

/-- A renderer of one kind of node. -/
abbrev Handler := RenderContext → Node → Rendering

/-- What is registered for a kind of node. -/
abbrev HandlerSpec := Spec Handler

/-- The registered kinds, with their handlers. -/
abbrev Registry := Specs Handler

namespace Registry

/-- What is registered, with the handlers ready to be called in a context. -/
def within (r : Registry) (ctx : RenderContext) : Specs (Node → Rendering) :=
  fun kind => (r kind).map (Spec.map fun handler => handler ctx)

/-- Renders a node, whose handler is given a context. -/
def render (r : Registry) (ctx : RenderContext) (n : Node) : Rendering :=
  (r.within ctx).render n

/-- What handlers are given when so many more of them may be at work inside them. -/
def context (r : Registry) (host : Host) (options : RenderOptions) (aliases : Table) : Nat → RenderContext
  | 0 => ⟨host, options, aliases, fun kind => (r kind).map (Spec.map fun _ _ => ⟨.error .nesting, []⟩)⟩
  | depth + 1 => ⟨host, options, aliases, r.within (r.context host options aliases depth)⟩

end Registry
end AtMark

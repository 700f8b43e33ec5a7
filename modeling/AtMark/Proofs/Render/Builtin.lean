import AtMark.Render.Page

/-!
# `Proofs.Render.Builtin`: what the library's own handlers need

## What is proved

* Every kind of node but the root is handled (`Render.builtin_handles_iff`), and a node of a handled kind leaves
  nothing or what its handler makes of it, never the comment for unknown nodes (`Registry.render_of_handles`).
* The library's handlers do not ask what is registered: any two contexts with the same host, options and aliases are
  the same to them (`Render.builtin_render_congr`).  A handler could ask, and have nodes rendered through it; that
  these do not is what keeps registrations for other kinds out of the page.
* So the page of a document for whose kinds nothing else is registered comes from the library's handlers in a context
  without any registration (`Renderer.page_of_builtin`).  The proofs about pages begin with this form.
* The only handler that can fail is that of code, and only by the highlighter (`Render.exists_html`).

## What is not

Nothing is said of the highlighter's HTML, and nothing is assumed of it but, in the last point, that there is some.
That it does not fail is a hypothesis wherever a page is promised (`Highlighter.NeverFails`), and `Host.plain`, whose
highlighter sets code without colours, is an instance of it.
-/

namespace AtMark

/-! ## A highlighter without colours -/

/-- The text of code. -/
def Highlight.Code.text : Highlight.Code → Text
  | markup pieces => pieces.flatMap Prod.snd
  | named _ text => prepare text
  | plain text => prepare text

/-- A highlighter that knows plain text only, and sets all code as one would set plain text. -/
def Highlighter.plain : Highlighter where
  knows language := Text.lower language == "text"
  html code := .ok ("<div class=\"highlight\" style=\"background: #f8f8f8\">" ++
    "<pre style=\"line-height: 125%;\"><span></span>" ++ Html.escape code.text ++ "</pre></div>\n")

theorem Highlighter.plain_neverFails : plain.NeverFails :=
  fun _ => ⟨_, rfl⟩

/-- A host with that highlighter and without files. -/
def Host.plain : Host :=
  ⟨.empty, .plain, 8⟩

/-! ## Handled kinds -/

/-- Is it registered what becomes of the nodes of a kind? -/
def Registry.Handles (r : Registry) (kind : NodeKind) : Prop :=
  ∃ spec, r kind = some spec ∧ (spec.headOnly = true ∨ spec.handler.isSome = true)

namespace Registry

variable {r r' : Registry} {ctx : RenderContext} {n : Node} {spec : HandlerSpec} {handler : Handler}

theorem render_of_headOnly (hspec : r n.kind = some spec) (hhead : spec.headOnly = true) :
    r.render ctx n = .of [] [.headOnly n.kind spec.description] := by
  simp only [render, Specs.render, within, hspec, Option.map_some, Spec.map, hhead, if_true]

theorem render_of_handler (hspec : r n.kind = some spec) (hhead : spec.headOnly = false)
    (hhandler : spec.handler = some handler) : r.render ctx n = handler ctx n := by
  simp [render, Specs.render, within, hspec, Spec.map, hhead, hhandler]

/-- A node of a handled kind leaves nothing, or what its handler makes of it. -/
theorem render_of_handles (h : r.Handles n.kind) (ctx : RenderContext) :
    (r.render ctx n).html = .ok [] ∨ ∃ spec handler, r n.kind = some spec ∧ spec.handler = some handler ∧
      r.render ctx n = handler ctx n := by
  obtain ⟨spec, hspec, hspoken⟩ := h
  cases hhead : spec.headOnly with
  | true =>
      rw [render_of_headOnly hspec hhead]
      exact .inl rfl
  | false =>
      rw [hhead, Bool.false_eq_true, false_or] at hspoken
      obtain ⟨handler, hhandler⟩ := Option.isSome_iff_exists.mp hspoken
      exact .inr ⟨spec, handler, hspec, hhandler, render_of_handler hspec hhead hhandler⟩

/-- The rendering of a node depends on what is registered for its kind, and on the context. -/
theorem render_congr (h : r n.kind = r' n.kind) (ctx : RenderContext) : r.render ctx n = r'.render ctx n := by
  simp only [render, Specs.render, within, h]

end Registry

namespace Render

/-- The library handles every kind but the root. -/
theorem builtin_handles_iff (kind : NodeKind) : builtin.Handles kind ↔ kind ≠ .document := by
  constructor
  · rintro ⟨spec, hspec, -⟩ rfl
    cases hspec
  · intro hkind
    cases kind with
    | document => exact absurd rfl hkind
    | metadata => exact ⟨_, rfl, .inl rfl⟩
    | styleDef => exact ⟨_, rfl, .inl rfl⟩
    | _ => exact ⟨_, rfl, .inr rfl⟩

/-! ## What the handlers read -/

variable {ctx ctx' : RenderContext} {n : Node}

theorem style_global (h : styleMode n = .global) (ctx : RenderContext) : style ctx n = .of [] [] := by
  rw [style, h]

theorem style_inline (h : styleMode n = .inline) (ctx : RenderContext) : style ctx n =
    .of ("<span" ++ Html.attr "style" (Style.inlineStyle n.attributes) ++ ">" ++ n.content ++ "</span>") [] := by
  rw [style, h]

theorem style_block (h : styleMode n = .block) (ctx : RenderContext) : style ctx n =
    .of ("<div" ++ SpanAttributes.nonemptyAttr "class" (classesOf ctx.aliases n) ++ ">" ++ n.content ++ "</div>")
      (classNotices ctx.aliases n) := by
  rw [style, h]

/-- The library's handlers read the host, the options and the aliases. -/
theorem builtin_render_congr (hhost : ctx.host = ctx'.host) (hoptions : ctx.options = ctx'.options)
    (haliases : ctx.aliases = ctx'.aliases) (n : Node) : builtin.render ctx n = builtin.render ctx' n := by
  obtain ⟨host, options, aliases, registered⟩ := ctx
  obtain ⟨host', options', aliases', registered'⟩ := ctx'
  obtain rfl : host = host' := hhost
  obtain rfl : options = options' := hoptions
  obtain rfl : aliases = aliases' := haliases
  obtain ⟨kind, attributes, content, owned, children⟩ := n
  cases kind <;> rfl

/-- A context in which nothing is registered. -/
def bare (host : Host) (options : RenderOptions) (aliases : Table) : RenderContext :=
  ⟨host, options, aliases, fun _ => none⟩

/-- A node has its HTML if the highlighter, where it is asked for, does not fail. -/
theorem exists_html (h : ctx.options.highlightCode = true → ctx.host.highlighter.NeverFails) (n : Node) :
    ∃ html, (builtin.render ctx n).html = .ok html := by
  obtain ⟨kind, attributes, content, owned, children⟩ := n
  cases kind with
  | codeBlock =>
      show ∃ html, (code ctx ⟨.codeBlock, attributes, content, owned, children⟩).html = .ok html
      unfold code
      split
      · next language hlanguage =>
        have hon : ctx.options.highlightCode = true := by
          unfold colouredAs at hlanguage
          split at hlanguage
          · assumption
          · cases hlanguage
        obtain ⟨html, hhtml⟩ := h hon (ctx.host.highlighter.codeOf language content)
        refine ⟨Text.trimEnd Highlight.isNewline html, ?_⟩
        rw [Highlighter.colour, hhtml]
        rfl
      · exact ⟨_, rfl⟩
  | content =>
      show ∃ html, (paragraph ctx ⟨.content, attributes, content, owned, children⟩).html = .ok html
      unfold paragraph
      split
      · exact ⟨_, rfl⟩
      · exact ⟨_, rfl⟩
  | style =>
      show ∃ html, (style ctx ⟨.style, attributes, content, owned, children⟩).html = .ok html
      cases hmode : styleMode ⟨.style, attributes, content, owned, children⟩ with
      | global => exact ⟨_, congrArg Rendering.html (style_global hmode ctx)⟩
      | inline => exact ⟨_, congrArg Rendering.html (style_inline hmode ctx)⟩
      | block => exact ⟨_, congrArg Rendering.html (style_block hmode ctx)⟩
  | _ => exact ⟨_, rfl⟩

end Render

/-! ## The lines of the body -/

namespace Renderer

variable {render render' : Node → Rendering} {ns : List Node}

theorem linesOf_congr (h : ∀ n ∈ ns, (render n).html = (render' n).html) :
    linesOf render ns = linesOf render' ns := by
  induction ns with
  | nil => rfl
  | cons n rest ih =>
      rw [linesOf, linesOf, h n List.mem_cons_self, ih fun m hm => h m (List.mem_cons_of_mem _ hm)]

theorem linesOf_map (f : Node → Node) (render : Node → Rendering) (ns : List Node) :
    linesOf render (ns.map f) = linesOf (fun n => render (f n)) ns := by
  induction ns with
  | nil => rfl
  | cons n rest ih => rw [List.map_cons, linesOf, linesOf, ih]

/-- Nodes that leave nothing may be left out. -/
theorem linesOf_filter (p : Node → Bool) (h : ∀ n, p n = false → (render n).html = .ok []) (ns : List Node) :
    linesOf render (ns.filter p) = linesOf render ns := by
  induction ns with
  | nil => rfl
  | cons n rest ih =>
      cases hp : p n with
      | true => rw [List.filter_cons_of_pos hp, linesOf, linesOf, ih]
      | false =>
          rw [List.filter_cons_of_neg (by simp [hp]), ih, linesOf, h n hp]
          cases linesOf render rest with
          | ok lines => rfl
          | error fault => rfl

theorem exists_linesOf (h : ∀ n ∈ ns, ∃ html, (render n).html = .ok html) :
    ∃ lines, linesOf render ns = .ok lines := by
  induction ns with
  | nil => exact ⟨[], rfl⟩
  | cons n rest ih =>
      obtain ⟨html, hhtml⟩ := h n List.mem_cons_self
      obtain ⟨lines, hlines⟩ := ih fun m hm => h m (List.mem_cons_of_mem _ hm)
      rw [linesOf, hhtml, hlines]
      exact ⟨_, rfl⟩

/-! ## Pages -/

variable {r : Renderer} {document : Node}

/-- The page of a document for whose kinds there is what the library registers, and whatever for other kinds. -/
theorem page_of_builtin (h : ∀ n ∈ document.children, r.registry n.kind = Render.builtin n.kind) :
    r.page document =
      (linesOf (Render.builtin.render (Render.bare r.host r.options (aliasesOf document)))
        document.children).map (assemble (Render.head r.host.files r.options document)) := by
  have hcontext : ∀ depth, (r.registry.context r.host r.options (aliasesOf document) depth).host = r.host ∧
      (r.registry.context r.host r.options (aliasesOf document) depth).options = r.options ∧
      (r.registry.context r.host r.options (aliasesOf document) depth).aliases = aliasesOf document := by
    intro depth
    cases depth with
    | zero => exact ⟨rfl, rfl, rfl⟩
    | succ depth => exact ⟨rfl, rfl, rfl⟩
  refine congrArg (Except.map _) (linesOf_congr fun n hn => congrArg Rendering.html ?_)
  obtain ⟨hhost, hoptions, haliases⟩ := hcontext r.host.nesting
  exact (Registry.render_congr (h n hn) _).trans (Render.builtin_render_congr hhost hoptions haliases n)

theorem page_builtin (host : Host) (options : RenderOptions) (document : Node) :
    ({ host, options } : Renderer).page document =
      (linesOf (Render.builtin.render (Render.bare host options (aliasesOf document))) document.children).map
        (assemble (Render.head host.files options document)) :=
  page_of_builtin fun _ _ => rfl

/-- There is a page if the highlighter, where it is asked for, does not fail. -/
theorem exists_page (host : Host) (options : RenderOptions)
    (h : options.highlightCode = true → host.highlighter.NeverFails) (document : Node) :
    ∃ body, ({ host, options } : Renderer).page document =
      .ok (assemble (Render.head host.files options document) body) := by
  obtain ⟨body, hbody⟩ : ∃ body, linesOf (Render.builtin.render
      (Render.bare host options (aliasesOf document))) document.children = .ok body :=
    exists_linesOf fun n _ => Render.exists_html h n
  exact ⟨body, by rw [page_builtin, hbody]; rfl⟩

end Renderer
end AtMark

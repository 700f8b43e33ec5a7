import AtMark.Proofs.Render.Builtin

/-!
# `Proofs.Render.Textless`: nodes whose text stays out of the page

Metadata, images and style sheets leave their attributes in the page and nothing else: whatever the text of
such a node is, the page is the same (`Renderer.page_eraseTexts`).  Each part of the page is gathered from the nodes
of some kinds, so for each part it is enough to look at the node itself and at those below it, which it
keeps.

For the body it is the handlers that decide, and those of the library read the attributes of such a node only
(`render_eraseText`).  A handler that is registered for one of these kinds may read its text, so the statement is about
the handlers of the library alone.

The page is the same also where there is none: what the highlighter makes of the code in the document, and whether it
fails, does not depend on these nodes.
-/

namespace AtMark

/-- Kinds whose text does not reach the page. -/
def NodeKind.isTextless : NodeKind → Bool
  | metadata | media | styleSheet => true
  | _ => false

namespace Directive

/-- The directives that make nodes of these kinds. -/
def textless : List Text :=
  ["@meta", "@image", "@media", "@import"]

theorem isTextless_of_mem_textless {name : Text} (h : name ∈ textless) :
    (kind name).isTextless = true := by
  have hall : ∀ name ∈ textless, (kind name).isTextless = true := by decide
  exact hall name h

end Directive

theorem NodeKind.bearsBody_of_isTextless {kind : NodeKind} (h : kind.isTextless = true) :
    kind.bearsBody = false := by
  cases kind with
  | metadata => rfl
  | media => rfl
  | styleSheet => rfl
  | _ => exact Bool.noConfusion h

namespace Node

variable {n : Node} {kind : NodeKind}

/-- The node without its text, where that does not reach the page. -/
def eraseText (n : Node) : Node :=
  if n.kind.isTextless then n.setContent [] false else n

theorem eraseText_of_isTextless (h : n.kind.isTextless = true) :
    n.eraseText = n.setContent [] false :=
  if_pos h

/-- The node itself, if it is of the kind, and the nodes of the kind below it. -/
theorem ofKind_eq (n : Node) (kind : NodeKind) :
    n.ofKind kind = (if n.kind = kind then [n] else []) ++ n.children.flatMap (ofKind · kind) := by
  rw [ofKind, walk_eq, List.filter_cons, walkAll_eq_flatMap, List.filter_flatMap]
  by_cases hkind : n.kind = kind
  · rw [if_pos (decide_eq_true hkind), if_pos hkind]
    rfl
  · rw [if_neg (fun h => hkind (of_decide_eq_true h)), if_neg hkind]
    rfl

/-- Among the nodes of a kind whose text counts, erasing changes nothing. -/
theorem ofKind_eraseText (h : kind.isTextless = false) : n.eraseText.ofKind kind = n.ofKind kind := by
  unfold eraseText
  split
  · next hn =>
    have hne : n.kind ≠ kind := by
      rintro rfl
      rw [h] at hn
      exact Bool.noConfusion hn
    rw [ofKind_eq n, if_neg hne, ofKind_eq (n.setContent [] false),
      if_neg (show (n.setContent [] false).kind ≠ kind from hne)]
    rfl
  · rfl

/-- The attributes are all kept. -/
theorem attributes_ofKind_eraseText (n : Node) (kind : NodeKind) :
    (n.eraseText.ofKind kind).map attributes = (n.ofKind kind).map attributes := by
  unfold eraseText
  split
  · rw [ofKind_eq n, ofKind_eq (n.setContent [] false), List.map_append, List.map_append]
    show (if n.kind = kind then [n.setContent [] false] else []).map attributes ++ _ = _
    split
    · rfl
    · rfl
  · rfl

end Node

namespace Render

variable {d : Node}

/-- A tree without the texts of its children that do not reach the page. -/
def eraseTexts (d : Node) : Node :=
  { d with children := d.children.map Node.eraseText }

theorem ofKind_eraseTexts {kind : NodeKind} (hroot : d.kind ≠ kind) (h : kind.isTextless = false) :
    (eraseTexts d).ofKind kind = d.ofKind kind := by
  rw [Node.ofKind_eq d, Node.ofKind_eq (eraseTexts d), if_neg hroot]
  show (if d.kind = kind then _ else []) ++ (d.children.map Node.eraseText).flatMap _ = _
  rw [if_neg hroot, List.flatMap_map]
  simp only [Node.ofKind_eraseText h]

theorem metadata_eraseTexts (hroot : d.kind = .document) :
    metadata (eraseTexts d) = metadata d := by
  have hne : d.kind ≠ .metadata := by
    rw [hroot]
    exact NodeKind.noConfusion
  have hattributes : ((eraseTexts d).ofKind .metadata).map Node.attributes =
      (d.ofKind .metadata).map Node.attributes := by
    rw [Node.ofKind_eq d, Node.ofKind_eq (eraseTexts d), if_neg hne]
    show ((if d.kind = NodeKind.metadata then _ else []) ++
      (d.children.map Node.eraseText).flatMap (Node.ofKind · .metadata)).map Node.attributes = _
    rw [if_neg hne, List.nil_append, List.nil_append, List.flatMap_map, List.map_flatMap,
      List.map_flatMap]
    simp only [Node.attributes_ofKind_eraseText]
  have hentries : ∀ ns : List Node, (ns.flatMap fun n => n.attributes.entries) =
      (ns.map Node.attributes).flatMap Table.entries :=
    fun ns => (List.flatMap_map ..).symm
  rw [metadata, metadata, hentries, hentries, hattributes]

end Render

namespace Renderer

variable {d : Node}

/-- What the library registers for a kind whose text does not reach the page reads the attributes only. -/
theorem render_eraseText (ctx : RenderContext) (n : Node) :
    Render.builtin.render ctx n.eraseText = Render.builtin.render ctx n := by
  obtain ⟨kind, attributes, content, owned, children⟩ := n
  cases kind with
  | metadata => rfl
  | media => rfl
  | styleSheet => rfl
  | _ => rfl

/-- The page does not depend on the texts of metadata, images and style sheets. -/
theorem page_eraseTexts (host : Host) (options : RenderOptions) (hroot : d.kind = .document) :
    ({ host, options } : Renderer).page (Render.eraseTexts d) = ({ host, options } : Renderer).page d := by
  have hother : ∀ kind, kind ≠ .document → d.kind ≠ kind := by
    rintro kind hkind rfl
    exact hkind hroot
  have haliases : aliasesOf (Render.eraseTexts d) = aliasesOf d := by
    rw [aliasesOf, aliasesOf, definitions, definitions,
      Render.ofKind_eraseTexts (hother _ (by decide)) rfl]
  have hstyles : Render.globalStyles (Render.eraseTexts d) = Render.globalStyles d := by
    rw [Render.globalStyles, Render.globalStyles,
      Render.ofKind_eraseTexts (hother _ (by decide)) rfl]
  have hhead : Render.head host.files options (Render.eraseTexts d) = Render.head host.files options d := by
    rw [Render.head, Render.head, Render.metadata_eraseTexts hroot, Render.globalRules,
      Render.globalRules, hstyles]
  have hbody : ∀ ctx, linesOf (Render.builtin.render ctx) (Render.eraseTexts d).children =
      linesOf (Render.builtin.render ctx) d.children := by
    intro ctx
    show linesOf _ (d.children.map Node.eraseText) = _
    rw [linesOf_map]
    exact linesOf_congr fun n _ => congrArg Rendering.html (render_eraseText ctx n)
  rw [page_builtin, page_builtin, haliases, hhead, hbody]

end Renderer
end AtMark

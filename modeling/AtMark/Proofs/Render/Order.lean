import AtMark.Proofs.Render.Textless
import Mathlib.Data.List.Perm.Basic

/-!
# `Proofs.Render.Order`: where the nodes of the head may stand

## What is proved

A child of a document serves the page in one of four ways (`Node.role`): metadata and global rules go into the
head, definitions into the table of aliases, and everything else into the body.  In a document of two levels,
each part of the page is gathered from the children of one role (`metadata_eq`, `definitions_eq`,
`globalStyles_eq`, `linesOf_eq`), so each is blind to the others.  Hence the children may be put into any other
order in which those of one role follow each other as before, and the page is the same
(`Renderer.page_rearranged`): metadata may stand behind the text, and an alias may be defined after its uses.

The host is any.  The code of a document is given to the highlighter in the order of the body, which is kept, so its
HTML is the same; and if the highlighter fails with one of the documents, it fails with the other on the same code.

## What is not

Documents with nodes below their children.  There a definition can stand inside a block of another role, and moving
the block moves the definition.  The parser makes no such trees (`Document.children_parts`).
-/

namespace AtMark

/-! ## Roles -/

/-- What a child of a document is for in the page. -/
inductive PageRole where
  | metadata
  | definition
  | globalRule
  | body
deriving DecidableEq, Repr

namespace Node

variable {n : Node}

/-- What a node is for, as a child of a document. -/
def role (n : Node) : PageRole :=
  match n.kind with
  | .metadata => .metadata
  | .styleDef => .definition
  | .style => if Render.styleMode n = .global then .globalRule else .body
  | _ => .body

theorem role_eq_metadata_iff : n.role = .metadata ↔ n.kind = .metadata := by
  unfold role
  split
  · next h => exact iff_of_true rfl h
  · next h => exact iff_of_false nofun (by simp [h])
  · next h => exact iff_of_false (by split <;> exact nofun) (by simp [h])
  · next h _ _ => exact iff_of_false nofun h

theorem role_eq_definition_iff : n.role = .definition ↔ n.kind = .styleDef := by
  unfold role
  split
  · next h => exact iff_of_false nofun (by simp [h])
  · next h => exact iff_of_true rfl h
  · next h => exact iff_of_false (by split <;> exact nofun) (by simp [h])
  · next h _ => exact iff_of_false nofun h

theorem role_eq_globalRule_iff :
    n.role = .globalRule ↔ n.kind = .style ∧ Render.styleMode n = .global := by
  unfold role
  split
  · next h => exact iff_of_false nofun (by simp [h])
  · next h => exact iff_of_false nofun (by simp [h])
  · next h =>
    rw [h]
    split
    · next hmode => exact iff_of_true rfl ⟨rfl, hmode⟩
    · next hmode => exact iff_of_false nofun fun hglobal => hmode hglobal.2
  · next h => exact iff_of_false nofun fun hglobal => h hglobal.1

end Node

/-- The same nodes in an order that keeps, for each role, the order of the nodes of that role. -/
def Rearranged (before after : List Node) : Prop :=
  ∀ role, before.filter (·.role = role) = after.filter (·.role = role)

/-- No node is lost, added or repeated. -/
theorem Rearranged.perm {before after : List Node} (h : Rearranged before after) :
    before.Perm after := by
  classical
  refine List.perm_iff_count.mpr fun n => ?_
  have hcount : ∀ ns : List Node, (ns.filter (·.role = n.role)).count n = ns.count n :=
    fun ns => List.count_filter (decide_eq_true (Eq.refl n.role))
  rw [← hcount before, h n.role, hcount after]

/-! ## The parts of the page -/

/-- A tree of two levels: no child has children of its own. -/
def Node.IsFlat (d : Node) : Prop :=
  ∀ n ∈ d.children, n.children = []

namespace Node.IsFlat

variable {d : Node} {kind : NodeKind}

/-- A walk through such a tree meets the root and then its children. -/
theorem walk_eq (h : d.IsFlat) : d.walk = d :: d.children := by
  have hchild : ∀ n ∈ d.children, n.walk = [n] := by
    intro n hn
    rw [Node.walk_eq, h n hn, walkAll]
  rw [Node.walk_eq, walkAll_eq_flatMap, List.flatMap_congr hchild, List.flatMap_singleton']

theorem ofKind_eq (h : d.IsFlat) (hroot : d.kind ≠ kind) :
    d.ofKind kind = d.children.filter (·.kind = kind) := by
  rw [ofKind, h.walk_eq, List.filter_cons_of_neg (by simpa using hroot)]

end Node.IsFlat

namespace Render

variable {d : Node}

theorem metadata_eq (hroot : d.kind = .document) (hflat : d.IsFlat) :
    metadata d = (d.children.filter (·.role = .metadata)).flatMap fun n => n.attributes.entries := by
  have hne : d.kind ≠ .metadata := by
    rw [hroot]
    exact NodeKind.noConfusion
  rw [metadata, hflat.ofKind_eq hne]
  simp only [Node.role_eq_metadata_iff]

theorem definitions_eq (hroot : d.kind = .document) (hflat : d.IsFlat) :
    Renderer.definitions d = (d.children.filter (·.role = .definition)).map (·.content) := by
  have hne : d.kind ≠ .styleDef := by
    rw [hroot]
    exact NodeKind.noConfusion
  rw [Renderer.definitions, hflat.ofKind_eq hne]
  simp only [Node.role_eq_definition_iff]

theorem globalStyles_eq (hroot : d.kind = .document) (hflat : d.IsFlat) :
    globalStyles d = (d.children.filter (·.role = .globalRule)).map (·.content) := by
  have hne : d.kind ≠ .style := by
    rw [hroot]
    exact NodeKind.noConfusion
  rw [globalStyles, hflat.ofKind_eq hne, List.filter_filter]
  simp only [Node.role_eq_globalRule_iff, Bool.decide_and, Bool.and_comm]

/-- A node of the head leaves nothing in the body. -/
theorem html_of_role_ne_body {n : Node} (h : n.role ≠ .body) (ctx : RenderContext) :
    (builtin.render ctx n).html = .ok [] := by
  obtain ⟨kind, attributes, content, owned, children⟩ := n
  cases kind with
  | metadata => rfl
  | styleDef => rfl
  | style =>
      have hmode : styleMode ⟨.style, attributes, content, owned, children⟩ = .global :=
        of_not_not fun hother => h (if_neg hother)
      exact congrArg Rendering.html (style_global hmode ctx)
  | _ => exact absurd rfl h

theorem linesOf_eq (ctx : RenderContext) (ns : List Node) :
    Renderer.linesOf (builtin.render ctx) ns =
      Renderer.linesOf (builtin.render ctx) (ns.filter (·.role = .body)) :=
  (Renderer.linesOf_filter _ (fun _ h => html_of_role_ne_body (of_decide_eq_false h) ctx) ns).symm

end Render

/-! ## The page -/

namespace Renderer

/-- Documents whose children stand in different orders have the same page, if those of one role follow each
other in the same order.  If there is no page of the one, there is none of the other, for the same reason. -/
theorem page_rearranged {d d' : Node} (host : Host) (options : RenderOptions)
    (hd : d.kind = .document) (hd' : d'.kind = .document) (hflat : d.IsFlat)
    (h : Rearranged d.children d'.children) :
    ({ host, options } : Renderer).page d' = ({ host, options } : Renderer).page d := by
  have hflat' : d'.IsFlat := fun n hn => hflat n (h.perm.mem_iff.mpr hn)
  have haliases : aliasesOf d' = aliasesOf d := by
    rw [aliasesOf, aliasesOf, Render.definitions_eq hd hflat, Render.definitions_eq hd' hflat', h]
  have hmetadata : Render.metadata d' = Render.metadata d := by
    rw [Render.metadata_eq hd hflat, Render.metadata_eq hd' hflat', h]
  have hrules : Render.globalRules d' = Render.globalRules d := by
    rw [Render.globalRules, Render.globalRules, Render.globalStyles_eq hd hflat,
      Render.globalStyles_eq hd' hflat', h]
  have hhead : Render.head host.files options d' = Render.head host.files options d := by
    rw [Render.head, Render.head, hmetadata, hrules]
  rw [page_builtin, page_builtin, haliases, hhead, Render.linesOf_eq, Render.linesOf_eq _ d.children, h]

/-- A block in the classes of an alias that is defined behind it, and code that is coloured. -/
theorem page_rearranged_alias :
    let block : Node := ⟨.style, .ofList [("name", "note")], "text", true, []⟩
    let code : Node := ⟨.codeBlock, .ofList [("language", "text")], "let x", true, []⟩
    let title : Node := ⟨.metadata, .ofList [("title", "T")], [], false, []⟩
    let definition : Node := ⟨.styleDef, .empty, "note: wide blue", true, []⟩
    let before : Node := ⟨.document, .empty, [], false, [definition, title, block, code]⟩
    let after : Node := ⟨.document, .empty, [], false, [block, title, code, definition]⟩
    let r : Renderer := { host := .plain, options := { highlightCode := true } }
    before.kind = .document ∧ after.kind = .document ∧ before.IsFlat ∧
      Rearranged before.children after.children ∧ r.page after = r.page before ∧
      r.page after = .ok (assemble ["<title>T</title>"]
        ["<div class=\"wide blue\">text</div>",
          "<div class=\"highlight\" style=\"background: #f8f8f8\">" ++
            "<pre style=\"line-height: 125%;\"><span></span>let x\n</pre></div>"]) := by
  intro block code title definition before after r
  have hflat : before.IsFlat := by
    intro n hn
    simp only [before, List.mem_cons, List.not_mem_nil, or_false] at hn
    rcases hn with rfl | rfl | rfl | rfl <;> rfl
  have h : Rearranged before.children after.children := by
    intro role
    cases role <;> rfl
  exact ⟨rfl, rfl, hflat, h, page_rearranged _ _ rfl rfl hflat h, by decide +kernel⟩

end Renderer
end AtMark

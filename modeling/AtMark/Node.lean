import AtMark.Node.Kind
import AtMark.Table

/-!
# `Node`: the document tree

A node has a kind, ordered attributes, a text and children.  As for tokens, an owned text was put together
by the reader.  `walk` visits a node and all below it in the order of the document.
-/

namespace AtMark

/-- A node of a document tree. -/
structure Node where
  kind : NodeKind
  attributes : Table := .empty
  content : Text := []
  owned : Bool := false
  children : List Node := []
deriving Repr

namespace Node

/-- The value of an attribute. -/
def attribute? (n : Node) (key : Text) : Option Text :=
  n.attributes.get? key

/-- Sets an attribute; a repeated key takes the new value. -/
def setAttribute (n : Node) (key value : Text) : Node :=
  { n with attributes := n.attributes.put key value }

/-- Sets the text. -/
def setContent (n : Node) (text : Text) (owned : Bool) : Node :=
  { n with content := text, owned := owned }

/-- Adds a last child. -/
def addChild (n child : Node) : Node :=
  { n with children := n.children ++ [child] }

mutual

/-- The node and all nodes below it, each before its children. -/
def walk : Node → List Node
  | ⟨kind, attributes, content, owned, children⟩ =>
    ⟨kind, attributes, content, owned, children⟩ :: walkAll children

/-- The nodes of a list with all nodes below them. -/
def walkAll : List Node → List Node
  | [] => []
  | n :: rest => walk n ++ walkAll rest

end

/-- The nodes of a kind, the node itself among them, in the order of the document. -/
def ofKind (n : Node) (kind : NodeKind) : List Node :=
  n.walk.filter fun m => m.kind = kind

theorem walk_eq (n : Node) : n.walk = n :: walkAll n.children := by
  cases n
  rw [walk]

theorem walkAll_eq_flatMap (ns : List Node) : walkAll ns = ns.flatMap walk := by
  induction ns with
  | nil => rw [walkAll, List.flatMap_nil]
  | cons n rest ih => rw [walkAll, List.flatMap_cons, ih]

end Node
end AtMark

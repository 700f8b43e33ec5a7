import AtMark.Block
import AtMark.Node

/-!
# `Document`: the tree of a token list

A document is flat: a root whose children are the nodes of the blocks, in their order.  A token that belongs
to nothing leaves no node.
-/

namespace AtMark

namespace DirectiveBlock

/-- The node of a directive. -/
def node (b : DirectiveBlock) : Node :=
  ⟨Directive.kind b.name, .ofList b.parameters, b.text.1, b.text.2, []⟩

end DirectiveBlock

namespace Block

/-- The node of a block, if it leaves one. -/
def node? : Block → Option Node
  | paragraph t => some ⟨.content, .empty, t.lexeme, t.owned, []⟩
  | directive b => some b.node
  | stray _ => none

end Block

namespace Document

/-- The document of a list of blocks. -/
def ofBlocks (blocks : List Block) : Node :=
  ⟨.document, .empty, [], false, blocks.filterMap Block.node?⟩

/-- The document of a token list. -/
def ofTokens (tokens : List Token) : Node :=
  ofBlocks (Block.ofTokens tokens)

/-- What is reported when the document is made. -/
def notices (tokens : List Token) : List Notice :=
  (Block.ofTokens tokens).flatMap Block.notices ++ [.parsed (ofTokens tokens).children.length]

end Document
end AtMark

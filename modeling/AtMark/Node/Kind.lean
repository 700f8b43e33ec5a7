import AtMark.Text.Basic

/-!
# `Node.Kind`: the kinds of nodes and the directives that make them

The table of directives is the only place that ties a directive's name to the kind of its node.  A name is
written with its at sign; some names are other spellings of a canonical one.
-/

namespace AtMark

/-- The kinds of nodes in a document tree. -/
inductive NodeKind where
  | document
  | metadata
  | heading
  | content
  | codeBlock
  | style
  | styleDef
  | styleSheet
  | math
  | media
deriving DecidableEq, Repr

namespace NodeKind

/-- All kinds. -/
def all : List NodeKind :=
  [document, metadata, heading, content, codeBlock, style, styleDef, styleSheet, math, media]

/-- The name of a kind, as it is printed and exchanged. -/
def name : NodeKind → Text
  | document => "Document"
  | metadata => "Meta"
  | heading => "Heading"
  | content => "Content"
  | codeBlock => "CodeBlock"
  | style => "Style"
  | styleDef => "StyleDef"
  | styleSheet => "Import"
  | math => "Math"
  | media => "Media"

/-- The kind of a printed name. -/
def ofName? (s : Text) : Option NodeKind :=
  all.find? fun kind => kind.name == s

/-- Kinds whose text runs on to a closing `@end`. -/
def bearsBody : NodeKind → Bool
  | codeBlock | math | style | styleDef => true
  | _ => false

end NodeKind

namespace Directive

/-- The canonical directives and the kinds of their nodes. -/
def table : List (Text × NodeKind) :=
  [("@meta", .metadata), ("@heading", .heading), ("@code", .codeBlock), ("@math", .math),
   ("@image", .media), ("@import", .styleSheet), ("@style", .style), ("@style-def", .styleDef)]

/-- Other spellings of canonical directives. -/
def spellings : List (Text × Text) :=
  [("@css", "@style"), ("@media", "@image"), ("@styledef", "@style-def")]

/-- The canonical spelling of a directive; a name without one stands for itself. -/
def canonical (name : Text) : Text :=
  (spellings.lookup name).getD name

/-- Does the library know the directive, under any spelling? -/
def isKnown (name : Text) : Bool :=
  (table.lookup name).isSome || (spellings.lookup name).isSome

/-- The kind of node that a directive makes.  An unknown directive makes a paragraph. -/
def kind (name : Text) : NodeKind :=
  (table.lookup (canonical name)).getD .content

/-- The directives whose bodies are read verbatim unless other ones are given. -/
def defaultFenced : List Text :=
  ["@code", "@math", "@style", "@css"]

end Directive
end AtMark

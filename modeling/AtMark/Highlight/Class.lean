import AtMark.Text.Basic

/-!
# `Highlight.Class`: the classes of highlighted text
-/

namespace AtMark.Highlight

/-- The classes of highlighted text. -/
inductive Class where
  | text
  | whitespace
  | punctuation
  | tag
  | key
  | keyword
  | declaration
  | operator
  | quotedString
  | string
  | escape
  | backtick
  | comment
  | heading
  | strong
  | emphasis
  | error
deriving DecidableEq, Repr

/-- A stretch of highlighted text. -/
abbrev Piece := Class × Text

namespace Class

/-- The name of a class, as it is printed. -/
def name : Class → Text
  | text => "Token.Text"
  | whitespace => "Token.Text.Whitespace"
  | punctuation => "Token.Punctuation"
  | tag => "Token.Name.Tag"
  | key => "Token.Name.Attribute"
  | keyword => "Token.Keyword"
  | declaration => "Token.Keyword.Declaration"
  | operator => "Token.Operator"
  | quotedString => "Token.Literal.String.Double"
  | string => "Token.Literal.String"
  | escape => "Token.Literal.String.Escape"
  | backtick => "Token.Literal.String.Backtick"
  | comment => "Token.Comment.Single"
  | heading => "Token.Generic.Heading"
  | strong => "Token.Generic.Strong"
  | emphasis => "Token.Generic.Emph"
  | error => "Token.Error"

end Class
end AtMark.Highlight

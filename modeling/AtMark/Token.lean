import AtMark.Text.Basic

/-!
# `Token`: the units of markup

A token is a kind with its text.  Most texts are slices of the source; a token is owned when its text was
made by the reader instead, by resolving an escape, a quotation or a heading sign.
-/

namespace AtMark

/-- The kinds of tokens. -/
inductive TokenKind where
  | directive
  | parameterKey
  | parameterValue
  | content
  | blockEnd
deriving DecidableEq, Repr

namespace TokenKind

/-- All kinds. -/
def all : List TokenKind :=
  [directive, parameterKey, parameterValue, content, blockEnd]

/-- The name of a kind, as it is printed and exchanged. -/
def name : TokenKind → Text
  | directive => "Directive"
  | parameterKey => "ParameterKey"
  | parameterValue => "ParameterValue"
  | content => "Content"
  | blockEnd => "BlockEnd"

/-- The kind of a printed name. -/
def ofName? (s : Text) : Option TokenKind :=
  all.find? fun kind => kind.name == s

end TokenKind

/-- A token of the markup. -/
structure Token where
  kind : TokenKind
  lexeme : Text
  owned : Bool := false
deriving DecidableEq, Repr

namespace Token

/-- The marker that closes a body. -/
def endMarker : Text := "@end"

/-- The token of a closing marker. -/
def blockEnd : Token := ⟨.blockEnd, endMarker, false⟩

/-- A content token, or none at all for an empty text. -/
def contentUnlessEmpty (text : Text) (owned : Bool) : List Token :=
  if text.isEmpty then [] else [⟨.content, text, owned⟩]

end Token
end AtMark

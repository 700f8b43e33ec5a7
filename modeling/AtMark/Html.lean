import AtMark.Text.Basic

/-!
# `Html`: values inside tags

Whatever a document says is escaped before it is put between the quotes of an attribute or into text.
-/

namespace AtMark.Html

/-- A character as HTML text. -/
def escapeChar (c : Char) : Text :=
  match c with
  | '&' => "&amp;"
  | '<' => "&lt;"
  | '>' => "&gt;"
  | '"' => "&quot;"
  | '\'' => "&#39;"
  | c => [c]

/-- Text with the five characters of HTML written as entities. -/
def escape (s : Text) : Text :=
  s.flatMap escapeChar

/-- An attribute of a tag, with a space before it. -/
def attr (name value : Text) : Text :=
  " " ++ name ++ "=\"" ++ escape value ++ "\""

end AtMark.Html

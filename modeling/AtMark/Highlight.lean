import AtMark.Highlight.Markup
import AtMark.Notice
import AtMark.Source
import AtMark.Text.Lower

/-!
# `Highlight`: coloured code

Code in the markup itself is cut into pieces by the rules of this library.  All the rest is the work of a
highlighter from outside: it knows lexers for other languages by their names, and it makes HTML of pieces or of
code in such a language.

A highlighter is a parameter here.  Which names it knows, what its HTML looks like and whether it comes to an end
with it are its own affair, so what is proved of pages holds for every highlighter.  Where it matters that it does
its work, `Highlighter.NeverFails` says so.
-/

namespace AtMark

namespace Highlight

/-- Is the character a newline? -/
def isNewline (c : Char) : Bool :=
  c == '\n'

/-- A text with every line break written as a newline. -/
def unifyBreaks : Text → Text
  | [] => []
  | '\r' :: '\n' :: cs => '\n' :: unifyBreaks cs
  | c :: cs => (if c = '\r' then '\n' else c) :: unifyBreaks cs

/-- A text ready for lexing: without a byte order mark, its line breaks newlines, with none at the start and
exactly one at the end. -/
def prepare (s : Text) : Text :=
  Text.trim isNewline (unifyBreaks (Source.dropMark s)) ++ ['\n']

/-- The pieces of a text in the markup. -/
def pieces (s : Text) : List Piece :=
  Markup.pieces (prepare s)

/-- The names of the markup among languages. -/
def markupNames : List Text := ["docz", "dcz"]

/-- Does the name, in any case, stand for the markup? -/
def isMarkup (language : Text) : Bool :=
  markupNames.contains (Text.lower language)

/-- Code that a highlighter is to colour: the pieces of code in the markup, code in a language that the highlighter
knows, or code that is to be taken as plain text. -/
inductive Code where
  | markup (pieces : List Piece)
  | named (language text : Text)
  | plain (text : Text)
deriving DecidableEq, Repr

end Highlight

/-- A highlighter: which names of languages it knows, and the HTML that it makes of code, or else what it says has
gone wrong. -/
structure Highlighter where
  knows : Text → Bool
  html : Highlight.Code → Except Text Text

namespace Highlighter

open Highlight

/-- The highlighter makes HTML of all code. -/
def NeverFails (h : Highlighter) : Prop :=
  ∀ code, ∃ html, h.html code = .ok html

/-- Code in a language, as the highlighter is given it.  Code in a language that it does not know is plain text. -/
def codeOf (h : Highlighter) (language text : Text) : Code :=
  if isMarkup language then .markup (pieces text)
  else if h.knows language then .named language text
  else .plain text

/-- Code in a language, coloured.  Newlines at the end of the HTML are dropped. -/
def colour (h : Highlighter) (language text : Text) : Except Text Text :=
  (h.html (h.codeOf language text)).map (Text.trimEnd isNewline)

/-- What is reported about the name of a language. -/
def notices (h : Highlighter) (language : Text) : List Notice :=
  if isMarkup language || h.knows language then [] else [.unknownLanguage language]

end Highlighter
end AtMark

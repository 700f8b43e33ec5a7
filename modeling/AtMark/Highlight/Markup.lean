import AtMark.Highlight.Rule
import AtMark.Text.Blank
import AtMark.Text.Lines
import AtMark.Token.Name

/-!
# `Highlight.Markup`: the rules for the markup itself

The rules follow the markup loosely: they colour comments, headings, escapes, directives with their
parameter lists, and the plain forms of code and emphasis.  Each rule says what it matches; the order of the
rules decides between them.
-/

namespace AtMark.Highlight.Markup

open Pattern Text

/-- The names of known directives, without their at sign. -/
def knownNames : List Text :=
  ["style-def", "styledef", "style", "css", "meta", "heading", "code", "math", "image", "media",
   "import"]

/-- The closing name. -/
def endName : Text := "end"

/-- Parts of which all is one piece. -/
def whole (kind : Class) (pattern : Pattern) : List Part :=
  [⟨some kind, pattern⟩]

/-! ## Lines -/

/-- Spaces and tabs, possibly none. -/
def indent : Pattern :=
  star (one isIndent)

/-- Characters of a line. -/
def inLine : Pattern :=
  star (one isInLine)

/-- The end of a line. -/
def lineEnd : Part :=
  ⟨none, notBefore isInLine⟩

/-- A hash sign. -/
def hash : Pattern :=
  word "#"

/-- A comment, with its indentation. -/
def comment : List Part :=
  [⟨some .comment, seq indent (seq (word "#:") inLine)⟩, lineEnd]

/-- A heading written with one to six hash signs. -/
def heading : List Part :=
  [⟨some .whitespace, indent⟩, ⟨some .punctuation, seq hash (upTo hash 5)⟩,
   ⟨some .whitespace, plus (one isIndent)⟩, ⟨some .heading, inLine⟩, lineEnd]

/-! ## At signs -/

/-- An at sign. -/
def atSign : Part :=
  ⟨some .punctuation, word "@"⟩

/-- The opening of a parameter list. -/
def opening : Part :=
  ⟨some .punctuation, word "("⟩

/-- The end of a name. -/
def nameEnd : Part :=
  ⟨none, notBefore Name.isNameChar⟩

/-- A name. -/
def name : Pattern :=
  plus (one Name.isNameChar)

/-- The name of a known directive, or what begins like one. -/
def knownName : Pattern :=
  anyOf knownNames

/-- An escaped word. -/
def escape : Pattern :=
  seq (word "@@") (plus (one isSolid))

/-! ## Running text -/

/-- A character other than the given one in a line. -/
def isInside (mark c : Char) : Bool :=
  c != mark && c != '\n'

/-- Code between backticks in a line. -/
def code : Pattern :=
  seq (word "\x60") (seq (star (one (isInside '\x60'))) (word "\x60"))

/-- A text that is not empty and holds no asterisk, between markers in a line. -/
def marked (marker : Text) : Pattern :=
  seq (word marker) (seq (plus (one (isInside '*'))) (word marker))

/-- The characters that no other rule begins with. -/
def isPlain (c : Char) : Bool :=
  c != '@' && c != '\x60' && c != '*' && c != '#' && c != '\n'

/-! ## Parameter lists -/

/-- A key with its equals sign and the blanks around it, in front of a value. -/
def assignment (kind : Class) (value : Pattern) : List Part :=
  [⟨some .key, name⟩, ⟨some .whitespace, star (one isBlank)⟩, ⟨some .operator, word "="⟩,
   ⟨some .whitespace, star (one isBlank)⟩, ⟨some kind, value⟩]

/-- Is the character one that stands for itself in a quotation? -/
def isQuotable (c : Char) : Bool :=
  c != '"' && c != '\\'

/-- A quotation.  A backslash takes the next character of its line along. -/
def quotation : Pattern :=
  seq (word "\"") (seq (star (alt (seq (word "\\") (one isInLine)) (one isQuotable))) (word "\""))

/-- The characters of a value without quotes. -/
def isBare (c : Char) : Bool :=
  !isBlank c && c != ',' && c != ')'

/-! ## The rules -/

/-- The rules of the markup. -/
def rules : Mode → List Rule
  | .body =>
    [⟨true, comment, .body⟩,
     ⟨true, heading, .body⟩,
     ⟨false, whole .escape escape, .body⟩,
     ⟨false, [atSign, ⟨some .keyword, word endName⟩, nameEnd], .body⟩,
     ⟨false, [atSign, ⟨some .declaration, knownName⟩, opening], .parameters⟩,
     ⟨false, [atSign, ⟨some .declaration, knownName⟩, nameEnd], .body⟩,
     ⟨false, [atSign, opening], .parameters⟩,
     ⟨false, [atSign, ⟨some .tag, name⟩, opening], .parameters⟩,
     ⟨false, [atSign, ⟨some .tag, name⟩], .body⟩,
     ⟨false, whole .backtick code, .body⟩,
     ⟨false, whole .strong (marked "**"), .body⟩,
     ⟨false, whole .emphasis (marked "*"), .body⟩,
     ⟨false, whole .text (plus (one isPlain)), .body⟩,
     ⟨false, whole .whitespace (word "\n"), .body⟩,
     ⟨false, whole .text (one isInLine), .body⟩]
  | .parameters =>
    [⟨false, whole .punctuation (word ")"), .body⟩,
     ⟨false, assignment .quotedString quotation, .parameters⟩,
     ⟨false, assignment .string (star (one isBare)), .parameters⟩,
     ⟨false, whole .key name, .parameters⟩,
     ⟨false, whole .punctuation (word ","), .parameters⟩,
     ⟨false, whole .whitespace (plus (one isBlank)), .parameters⟩,
     ⟨false, whole .text (one isInLine), .parameters⟩]

/-- The pieces of a text that is ready for lexing. -/
def pieces (s : Text) : List Piece :=
  lex rules .body true s

end AtMark.Highlight.Markup

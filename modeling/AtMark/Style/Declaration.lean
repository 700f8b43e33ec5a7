import AtMark.Notice
import AtMark.Search
import AtMark.Text.Blank

/-!
# `Style.Declaration`: declarations in a global rule

The right side of a global rule is a list `key=value, key="value"`.  Commas inside quotes do not separate,
and one pair of quotes around a value is taken off.  A part without an equals sign or without a key is
ignored.
-/

namespace AtMark.Style

open Search Text

/-- A text without its outer blanks and without one pair of equal quotes around the rest. -/
def unquote (s : Text) : Text :=
  match strip s with
  | [] => []
  | c :: cs => if isQuote c && cs.getLast? == some c then cs.dropLast else c :: cs

/-- The quote that is open behind a character. -/
def quoteAfter : Option Char → Char → Option Char
  | none, c => if isQuote c then some c else none
  | some q, c => if c = q then none else some q

/-- The pieces of a text between the commas outside quotes, given the quote that is open at its start.
There is always at least one piece. -/
def splitCommas (quote : Option Char) : Text → List Text
  | [] => [[]]
  | c :: cs =>
    if c = ',' ∧ quote = none then [] :: splitCommas quote cs
    else
      match splitCommas (quoteAfter quote c) cs with
      | [] => [[c]]
      | piece :: more => (c :: piece) :: more

/-- The parts of a declaration list, without their outer blanks and without blank ones. -/
def splitDeclarations (s : Text) : List Text :=
  ((splitCommas none s).map strip).filter (· ≠ [])

/-- A part of a declaration list. -/
inductive Part where
  | declaration (key value : Text)
  | ignored (text : Text)
deriving DecidableEq, Repr

namespace Part

/-- The reading of a part. -/
def ofText (s : Text) : Part :=
  match breakOn ['='] s with
  | none => ignored s
  | some (key, value) =>
    if strip key = [] then ignored s else declaration (strip key) (unquote value)

/-- The key and the value of a declaration. -/
def pair? : Part → Option (Text × Text)
  | declaration key value => some (key, value)
  | ignored _ => none

/-- What is reported about a part. -/
def notices : Part → List Notice
  | declaration .. => []
  | ignored text => [.declarationIgnored text]

end Part

/-- The parts of a declaration list, as they are read. -/
def parts (s : Text) : List Part :=
  (splitDeclarations s).map Part.ofText

/-- The keys and values of a declaration list. -/
def declarations (s : Text) : List (Text × Text) :=
  (parts s).filterMap Part.pair?

/-- A key and a value as CSS. -/
def declarationText (d : Text × Text) : Text :=
  d.1 ++ ":" ++ d.2 ++ ";"

end AtMark.Style

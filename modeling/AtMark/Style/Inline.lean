import AtMark.Style.Declaration
import AtMark.Table

/-!
# `Style.Inline`: the attributes of a directive as an inline style

The order is fixed: the font size, then the colour, then every other key by code point.  The key that
chooses the mode of the directive is no style.
-/

namespace AtMark.Style

/-- The attribute that chooses the mode of a style directive. -/
def modeKey : Text := "mode"

/-- The rank of a key: font size, colour, all others. -/
def rank (key : Text) : Nat :=
  if key = "font-size".toList then 0 else if key = "color".toList then 1 else 2

/-- May a key stand before another one, or where it stands? -/
def keyLe (a b : Text) : Bool :=
  rank a < rank b || (rank a == rank b && Text.le a b)

/-- The styles among some entries, in their order. -/
def sortedStyles (entries : List (Text × Text)) : List (Text × Text) :=
  (entries.filter fun e => e.1 ≠ modeKey).mergeSort fun a b => keyLe a.1 b.1

/-- The attributes as an inline style. -/
def inlineStyle (attributes : Table) : Text :=
  (sortedStyles attributes.entries).flatMap declarationText

end AtMark.Style

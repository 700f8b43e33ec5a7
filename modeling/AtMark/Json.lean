import AtMark.Number.Binary64
import AtMark.Text.Basic

/-!
# `Json`: values of the exchange format

Whole numbers are exact and of any size; a number with a point or an exponent is binary, and the two
infinities and the value that is no number are accepted among them.
-/

namespace AtMark

/-- A JSON value.  The entries of an object stand in the order of the text. -/
inductive Json where
  | null
  | bool (b : Bool)
  | integer (n : Int)
  | real (x : Binary64)
  | string (s : Text)
  | array (items : List Json)
  | object (entries : List (Text × Json))
deriving Repr

namespace Json

/-- The value of a name among the entries of an object; a repeated name takes its last value. -/
def entry? (entries : List (Text × Json)) (name : Text) : Option Json :=
  entries.reverse.lookup name

end Json
end AtMark

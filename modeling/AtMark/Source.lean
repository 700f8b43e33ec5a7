import AtMark.Search
import AtMark.Text.Utf8

/-!
# `Source`: a document as it comes in

A document arrives as bytes or as text.  One byte order mark at its start is not part of it, and ill-formed
bytes are replaced rather than refused, so every source has a text.
-/

namespace AtMark

/-- A document before it is read. -/
inductive Source where
  | bytes (raw : Bytes)
  | text (content : Text)
deriving DecidableEq, Repr

namespace Source

/-- The byte order mark in UTF-8. -/
def byteMark : Bytes := [0xEF, 0xBB, 0xBF]

/-- Bytes without one leading byte order mark. -/
def dropByteMark (raw : Bytes) : Bytes :=
  (Search.skip? byteMark raw).getD raw

/-- Text without one leading byte order mark. -/
def dropMark : Text → Text
  | '\uFEFF' :: rest => rest
  | content => content

/-- The text to be read. -/
def decode : Source → Text
  | .bytes raw => Utf8.decode (dropByteMark raw)
  | .text content => dropMark content

end Source
end AtMark
